import CanonicalLR.Proofs.Parse.Conditional

/-!
# The nearest unmatched `IF`

A tree binds each `ELSE` to the `IF` of the same node (`bindings`). It binds every `ELSE` to the nearest `IF` before it
that no `ELSE` before it is bound to (`BindsNearest`) just if its statement is a nearest one (`bindsNearest_iff`). The
reason is that a statement that ends in an `IF` without `ELSE` leaves an `IF` alone (`exists_shows_of_endsOpen`), and a
nearest statement that does not leaves none (`IsNearest.exists_mem_pairs`).
-/

namespace CanonicalLR.Conditionals

/-! ## Which `ELSE` belongs to which `IF` -/

mutual

/-- The places of the `IF` and the `ELSE` of each node with both, where the first token of the tree is at a place. -/
def bindings : Tree Unit String → Nat → List (Nat × Nat)
  | .leaf _, _ => []
  | .node p children, k =>
    (if p.number = elseRule.number then [(k, k + (forestLeaves (children.take 3)).length)] else []) ++
      forestBindings children k

/-- The places in trees one behind the other. -/
def forestBindings : List (Tree Unit String) → Nat → List (Nat × Nat)
  | [], _ => []
  | t :: ts, k => bindings t k ++ forestBindings ts (k + t.leaves.length)

end

/-- Every `ELSE` belongs to the nearest unmatched `IF`: to one before it that no `ELSE` before it belongs to, such that
some `ELSE` before it belongs to each `IF` between the two. -/
def BindsNearest (names : List String) (tree : Tree Unit String) : Prop :=
  ∀ j, names[j]? = some elseWord.name → ∃ i < j, names[i]? = some ifWord.name ∧ (i, j) ∈ bindings tree 0 ∧
    (∀ l < j, (i, l) ∉ bindings tree 0) ∧
    ∀ k, i < k → k < j → names[k]? = some ifWord.name → ∃ l < j, (k, l) ∈ bindings tree 0

namespace Statement

/-- The places of the `IF`s and `ELSE`s that belong together, in a statement that begins at a place. -/
def pairs : Statement → Nat → List (Nat × Nat)
  | other, _ => []
  | ifThen s, k => s.pairs (k + 2)
  | ifElse s t, k => (k, k + s.names.length + 2) :: (s.pairs (k + 2) ++ t.pairs (k + s.names.length + 3))

/-- The name of a terminal stands at a place of a statement that begins at a place. -/
def Shows (s : Statement) (t : Terminal) (k m : Nat) : Prop := (t.name, m) ∈ s.names.zipIdx k

variable {s t : Statement} {k m i j : Nat}

@[simp] theorem not_shows_if_other : ¬other.Shows ifWord k m := by
  simp [Shows, names, ifWord, otherWord]

@[simp] theorem shows_if_ifThen : (ifThen s).Shows ifWord k m ↔ m = k ∨ s.Shows ifWord (k + 2) m := by
  simp [Shows, names, ifWord, condWord, List.zipIdx_cons]

@[simp] theorem shows_if_ifElse : (ifElse s t).Shows ifWord k m ↔
    m = k ∨ s.Shows ifWord (k + 2) m ∨ t.Shows ifWord (k + s.names.length + 3) m := by
  have hplace : k + 1 + 1 + s.names.length + 1 = k + s.names.length + 3 := by omega
  simp [Shows, names, ifWord, condWord, elseWord, List.zipIdx_cons, List.zipIdx_append, hplace]

@[simp] theorem not_shows_else_other : ¬other.Shows elseWord k m := by
  simp [Shows, names, elseWord, otherWord]

@[simp] theorem shows_else_ifThen : (ifThen s).Shows elseWord k m ↔ s.Shows elseWord (k + 2) m := by
  simp [Shows, names, elseWord, ifWord, condWord, List.zipIdx_cons]

@[simp] theorem shows_else_ifElse : (ifElse s t).Shows elseWord k m ↔ m = k + s.names.length + 2 ∨
    s.Shows elseWord (k + 2) m ∨ t.Shows elseWord (k + s.names.length + 3) m := by
  have hplace : k + 1 + 1 + s.names.length = k + s.names.length + 2 := by omega
  simp [Shows, names, ifWord, condWord, elseWord, List.zipIdx_cons, List.zipIdx_append, hplace, or_left_comm]

theorem Shows.bounds {u : Terminal} (h : s.Shows u k m) : k ≤ m ∧ m < k + s.names.length :=
  ⟨List.le_snd_of_mem_zipIdx h, List.snd_lt_add_of_mem_zipIdx h⟩

theorem shows_zero_iff {u : Terminal} : s.Shows u 0 m ↔ s.names[m]? = some u.name := by
  rw [Shows, List.mem_zipIdx_iff_getElem?]

/-! ## Pairs -/

@[simp] theorem mem_pairs_ifElse : (i, j) ∈ (ifElse s t).pairs k ↔ i = k ∧ j = k + s.names.length + 2 ∨
    (i, j) ∈ s.pairs (k + 2) ∨ (i, j) ∈ t.pairs (k + s.names.length + 3) := by
  simp [pairs]

theorem bindings_tree (s : Statement) (k : Nat) : bindings s.tree k = s.pairs k := by
  induction s generalizing k with
  | other => rfl
  | ifThen s ih =>
    simp [tree, word, cond, bindings, forestBindings, ih, pairs, ifRule, elseRule, condRule, Tree.leaves, forestLeaves]
  | ifElse s t ihs iht =>
    have helse : k + (s.names.length + 1 + 1) = k + s.names.length + 2 := by omega
    have hplace : k + 1 + 1 + s.names.length + 1 = k + s.names.length + 3 := by omega
    simp [tree, word, cond, bindings, forestBindings, ihs, iht, pairs, elseRule, condRule, Tree.leaves, forestLeaves,
      length_leaves_tree, helse, hplace]

/-- What belongs together is an `IF` and an `ELSE` behind it. -/
theorem shows_of_mem_pairs (h : (i, j) ∈ s.pairs k) : s.Shows ifWord k i ∧ s.Shows elseWord k j ∧ i < j := by
  induction s generalizing k with
  | other => cases h
  | ifThen s ih =>
    obtain ⟨hi, hj, hlt⟩ := ih h
    exact ⟨shows_if_ifThen.mpr (.inr hi), shows_else_ifThen.mpr hj, hlt⟩
  | ifElse s t ihs iht =>
    rw [shows_if_ifElse, shows_else_ifElse]
    rcases mem_pairs_ifElse.mp h with ⟨rfl, rfl⟩ | h | h
    · exact ⟨.inl rfl, .inl rfl, by omega⟩
    · obtain ⟨hi, hj, hlt⟩ := ihs h
      exact ⟨.inr (.inl hi), .inr (.inl hj), hlt⟩
    · obtain ⟨hi, hj, hlt⟩ := iht h
      exact ⟨.inr (.inr hi), .inr (.inr hj), hlt⟩

theorem bounds_of_mem_pairs (h : (i, j) ∈ s.pairs k) : k ≤ i ∧ i < j ∧ j < k + s.names.length := by
  obtain ⟨hi, hj, hlt⟩ := shows_of_mem_pairs h
  exact ⟨hi.bounds.1, hlt, hj.bounds.2⟩

/-- Every `ELSE` belongs to an `IF`. -/
theorem exists_mem_pairs (h : s.Shows elseWord k j) : ∃ i, (i, j) ∈ s.pairs k := by
  induction s generalizing k with
  | other => exact absurd h not_shows_else_other
  | ifThen s ih => exact ih (shows_else_ifThen.mp h)
  | ifElse s t ihs iht =>
    rcases shows_else_ifElse.mp h with rfl | h | h
    · exact ⟨k, mem_pairs_ifElse.mpr (.inl ⟨rfl, rfl⟩)⟩
    · obtain ⟨i, hi⟩ := ihs h
      exact ⟨i, mem_pairs_ifElse.mpr (.inr (.inl hi))⟩
    · obtain ⟨i, hi⟩ := iht h
      exact ⟨i, mem_pairs_ifElse.mpr (.inr (.inr hi))⟩

/-- A pair of a statement with `ELSE` is told by its places: between the words of the node it is one of the first
statement, behind them one of the second. -/
theorem mem_pairs_left (hj : j < k + s.names.length + 2) (hi : k < i) (h : (i, j) ∈ (ifElse s t).pairs k) :
    (i, j) ∈ s.pairs (k + 2) := by
  rcases mem_pairs_ifElse.mp h with ⟨rfl, -⟩ | h | h
  · omega
  · exact h
  · have := bounds_of_mem_pairs h
    omega

theorem mem_pairs_right (hi : k + s.names.length + 2 < i) (h : (i, j) ∈ (ifElse s t).pairs k) :
    (i, j) ∈ t.pairs (k + s.names.length + 3) := by
  rcases mem_pairs_ifElse.mp h with ⟨rfl, -⟩ | h | h
  · omega
  · have := bounds_of_mem_pairs h
    omega
  · exact h

/-- An `ELSE` belongs to one `IF` only, and one `ELSE` only belongs to an `IF`. -/
theorem mem_pairs_inj {i' j' : Nat} (h : (i, j) ∈ s.pairs k) (h' : (i', j') ∈ s.pairs k) : i = i' ↔ j = j' := by
  induction s generalizing k with
  | other => cases h
  | ifThen s ih => exact ih h h'
  | ifElse s t ihs iht =>
    -- pairs of the node and of the statements on either side have different places
    rcases mem_pairs_ifElse.mp h with ⟨rfl, rfl⟩ | h | h <;>
      rcases mem_pairs_ifElse.mp h' with ⟨rfl, rfl⟩ | h' | h'
    · simp
    · have := bounds_of_mem_pairs h'
      omega
    · have := bounds_of_mem_pairs h'
      omega
    · have := bounds_of_mem_pairs h
      omega
    · exact ihs h h'
    · have := bounds_of_mem_pairs h
      have := bounds_of_mem_pairs h'
      omega
    · have := bounds_of_mem_pairs h
      omega
    · have := bounds_of_mem_pairs h
      have := bounds_of_mem_pairs h'
      omega
    · exact iht h h'

/-! ## Nearest pairs -/

/-- An `IF` between an `IF` and its `ELSE` has got its own `ELSE` before. -/
def HasNearestPairs (s : Statement) (k : Nat) : Prop :=
  ∀ i j, (i, j) ∈ s.pairs k → ∀ m, s.Shows ifWord k m → i < m → m < j → ∃ l < j, (m, l) ∈ s.pairs k

/-- Where a statement does not end in an `IF` without `ELSE`, nearest pairs leave no `IF` alone. -/
theorem IsNearest.exists_mem_pairs (h : s.IsNearest) (he : s.endsOpen = false) (hm : s.Shows ifWord k m) :
    ∃ l, (m, l) ∈ s.pairs k := by
  induction s generalizing k with
  | other => exact absurd hm not_shows_if_other
  | ifThen s ih => cases he
  | ifElse s t ihs iht =>
    obtain ⟨hs, hns, hnt⟩ := h
    rcases shows_if_ifElse.mp hm with rfl | hm | hm
    · exact ⟨_, mem_pairs_ifElse.mpr (.inl ⟨rfl, rfl⟩)⟩
    · obtain ⟨l, hl⟩ := ihs hns hs hm
      exact ⟨l, mem_pairs_ifElse.mpr (.inr (.inl hl))⟩
    · obtain ⟨l, hl⟩ := iht hnt he hm
      exact ⟨l, mem_pairs_ifElse.mpr (.inr (.inr hl))⟩

/-- A statement that ends in an `IF` without `ELSE` leaves an `IF` alone. -/
theorem exists_shows_of_endsOpen (h : s.endsOpen = true) :
    ∃ m, s.Shows ifWord k m ∧ ∀ l, (m, l) ∉ s.pairs k := by
  induction s generalizing k with
  | other => cases h
  | ifThen s _ =>
    refine ⟨k, shows_if_ifThen.mpr (.inl rfl), fun l hl => ?_⟩
    have := bounds_of_mem_pairs (s := s) hl
    omega
  | ifElse s t _ iht =>
    obtain ⟨m, hm, hl⟩ := iht (k := k + s.names.length + 3) h
    have := hm.bounds
    exact ⟨m, shows_if_ifElse.mpr (.inr (.inr hm)), fun l h => hl l (mem_pairs_right (by omega) h)⟩

theorem HasNearestPairs.left (h : (ifElse s t).HasNearestPairs k) : s.HasNearestPairs (k + 2) := by
  intro i j hij m hm him hmj
  have := bounds_of_mem_pairs hij
  obtain ⟨l, hl, hml⟩ := h i j (mem_pairs_ifElse.mpr (.inr (.inl hij))) m (shows_if_ifElse.mpr (.inr (.inl hm))) him hmj
  exact ⟨l, hl, mem_pairs_left (by omega) (by omega) hml⟩

theorem HasNearestPairs.right (h : (ifElse s t).HasNearestPairs k) :
    t.HasNearestPairs (k + s.names.length + 3) := by
  intro i j hij m hm him hmj
  have := bounds_of_mem_pairs hij
  obtain ⟨l, hl, hml⟩ := h i j (mem_pairs_ifElse.mpr (.inr (.inr hij))) m (shows_if_ifElse.mpr (.inr (.inr hm))) him hmj
  exact ⟨l, hl, mem_pairs_right (by omega) hml⟩

/-- The pair of a node is nearest only if the statement between does not end in an `IF` without `ELSE`. -/
theorem HasNearestPairs.endsOpen_eq_false (h : (ifElse s t).HasNearestPairs k) : s.endsOpen = false := by
  by_contra hne
  obtain ⟨m, hm, hl⟩ := exists_shows_of_endsOpen (k := k + 2) (eq_true_of_ne_false hne)
  have := hm.bounds
  obtain ⟨l, hlt, hml⟩ := h k _ (mem_pairs_ifElse.mpr (.inl ⟨rfl, rfl⟩)) m (shows_if_ifElse.mpr (.inr (.inl hm)))
    (by omega) (by omega)
  exact hl l (mem_pairs_left hlt (by omega) hml)

theorem HasNearestPairs.ifElse (he : s.endsOpen = false) (hn : s.IsNearest) (hs : s.HasNearestPairs (k + 2))
    (ht : t.HasNearestPairs (k + s.names.length + 3)) : (ifElse s t).HasNearestPairs k := by
  intro i j hij m hm him hmj
  rcases mem_pairs_ifElse.mp hij with ⟨rfl, rfl⟩ | hij | hij
  · -- between the words of the node stands a statement that leaves no `IF` alone
    rcases shows_if_ifElse.mp hm with rfl | hm | hm
    · omega
    · obtain ⟨l, hl⟩ := hn.exists_mem_pairs he hm
      have := bounds_of_mem_pairs hl
      exact ⟨l, by omega, mem_pairs_ifElse.mpr (.inr (.inl hl))⟩
    · have := hm.bounds
      omega
  · have := bounds_of_mem_pairs hij
    rcases shows_if_ifElse.mp hm with rfl | hm | hm
    · omega
    · obtain ⟨l, hl, hml⟩ := hs i j hij m hm him hmj
      exact ⟨l, hl, mem_pairs_ifElse.mpr (.inr (.inl hml))⟩
    · have := hm.bounds
      omega
  · have := bounds_of_mem_pairs hij
    rcases shows_if_ifElse.mp hm with rfl | hm | hm
    · omega
    · have := hm.bounds
      omega
    · obtain ⟨l, hl, hml⟩ := ht i j hij m hm him hmj
      exact ⟨l, hl, mem_pairs_ifElse.mpr (.inr (.inr hml))⟩

/-- **Pairs are nearest just if no statement between an `IF` and its `ELSE` ends in an `IF` without `ELSE`.** -/
theorem hasNearestPairs_iff : s.HasNearestPairs k ↔ s.IsNearest := by
  induction s generalizing k with
  | other => exact ⟨fun _ => trivial, fun _ i j h => by cases h⟩
  | ifThen s ih =>
    rw [IsNearest, ← ih (k := k + 2)]
    constructor
    · exact fun h i j hij m hm => h i j hij m (shows_if_ifThen.mpr (.inr hm))
    · intro h i j hij m hm him hmj
      rcases shows_if_ifThen.mp hm with rfl | hm
      · have := bounds_of_mem_pairs (s := s) hij
        omega
      · exact h i j hij m hm him hmj
  | ifElse s t ihs iht =>
    constructor
    · exact fun h => ⟨h.endsOpen_eq_false, ihs.mp h.left, iht.mp h.right⟩
    · rintro ⟨he, hs, ht⟩
      exact .ifElse he hs (ihs.mpr hs) (iht.mpr ht)

end Statement

/-- **A tree binds every `ELSE` to the nearest unmatched `IF` just if no statement between an `IF` and its `ELSE` ends
in an `IF` without `ELSE`.** -/
theorem bindsNearest_iff {s : Statement} : BindsNearest s.names s.tree ↔ s.IsNearest := by
  rw [← Statement.hasNearestPairs_iff (k := 0)]
  simp only [BindsNearest, Statement.bindings_tree, ← Statement.shows_zero_iff]
  constructor
  · intro h i j hij m hm him hmj
    obtain ⟨-, helse, -⟩ := Statement.shows_of_mem_pairs hij
    obtain ⟨i', _, _, hij', _, hbetween⟩ := h j helse
    obtain rfl := (Statement.mem_pairs_inj hij hij').mpr rfl
    exact hbetween m him hmj hm
  · intro h j helse
    obtain ⟨i, hij⟩ := Statement.exists_mem_pairs helse
    obtain ⟨hif, -, hlt⟩ := Statement.shows_of_mem_pairs hij
    refine ⟨i, hlt, hif, hij, fun l hl hil => ?_, fun m him hmj hm => h i j hij m hm him hmj⟩
    exact absurd ((Statement.mem_pairs_inj hil hij).mp rfl) (Nat.ne_of_lt hl)

end CanonicalLR.Conditionals
