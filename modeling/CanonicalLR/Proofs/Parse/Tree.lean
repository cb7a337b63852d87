import CanonicalLR.Parse.Tree
import CanonicalLR.Proofs.Grammar.Analysis
import Mathlib.Data.List.Forall2

/-!
# Trees of a grammar

A tree of a symbol is a token that stands for the symbol, or a production with trees of the symbols of its body
(`IsTree`). The productions of a tree in post-order, whose numbers are its reductions (`map_number_postorder`), are read
backwards a rightmost derivation of what the leaves spell (`IsTree.rightDerivesBy_postorder`). Every text that the start
symbol derives is spelled by the leaves of a tree (`exists_isTree_of_derives`).
-/

namespace CanonicalLR

variable {α τ : Type}

/-- A token stands for the terminal that it names. -/
def StandsFor : Option (Token τ) → Terminal → Prop
  | some token, t => token.name? = some t.name
  | none, _ => False

/-- The tokens stand for the terminals of a text, one for one. -/
def Spells (tokens : List (Option (Token τ))) (w : List Terminal) : Prop := List.Forall₂ StandsFor tokens w

mutual

/-- A tree of a symbol: its productions come from rules, and its leaves are tokens that name their terminals. -/
def IsTree (g : Grammar α) : Symbol → Tree α τ → Prop
  | s, .leaf token => ∃ t, s = .terminal t ∧ StandsFor token t
  | s, .node p children => p ∈ g.productions.tail ∧ s = .nonterminal p.head ∧ AreTrees g p.body children

/-- Trees of the symbols of a text, one for one. -/
def AreTrees (g : Grammar α) : List Symbol → List (Tree α τ) → Prop
  | ss, [] => ss = []
  | ss, t :: ts => ∃ s ss', ss = s :: ss' ∧ IsTree g s t ∧ AreTrees g ss' ts

end

mutual

/-- The productions of a tree, those of children before those of their parent. -/
def Tree.postorder : Tree α τ → List (Production α)
  | .leaf _ => []
  | .node p children => forestPostorder children ++ [p]

/-- The productions of trees, from left to right. -/
def forestPostorder : List (Tree α τ) → List (Production α)
  | [] => []
  | t :: ts => t.postorder ++ forestPostorder ts

end

mutual

/-- The numbers of the productions are the reductions of the tree. -/
theorem map_number_postorder : ∀ t : Tree α τ, t.postorder.map Production.number = t.reductions
  | .leaf _ => rfl
  | .node p children => by
    simp only [Tree.postorder, Tree.reductions, List.map_append, map_number_forestPostorder children]
    rfl

theorem map_number_forestPostorder : ∀ ts : List (Tree α τ),
    (forestPostorder ts).map Production.number = forestReductions ts
  | [] => rfl
  | t :: ts => by
    simp only [forestPostorder, forestReductions, List.map_append, map_number_postorder t,
      map_number_forestPostorder ts]

end

/-! ## Tokens -/

theorem standsFor_unique {token : Option (Token τ)} {t u : Terminal} (ht : StandsFor token t) (hu : StandsFor token u) :
    t = u := by
  cases token with
  | none => cases ht
  | some token =>
    have hname : t.name = u.name := Option.some.inj (Eq.trans (Eq.symm ht) hu)
    exact Terminal.eq_of_name_eq hname

theorem Spells.append {us vs : List (Option (Token τ))} {u v : List Terminal} (hu : Spells us u) (hv : Spells vs v) :
    Spells (us ++ vs) (u ++ v) := List.rel_append hu hv

/-- Tokens spell one text at most. -/
theorem Spells.unique {us : List (Option (Token τ))} {u v : List Terminal} (hu : Spells us u) (hv : Spells us v) :
    u = v := by
  have hr : Relator.RightUnique (StandsFor : Option (Token τ) → Terminal → Prop) := fun _ _ _ => standsFor_unique
  exact List.right_unique_forall₂' hr hu hv

/-! ## Forests -/

variable {g : Grammar α}

@[simp] theorem areTrees_nil {ss : List Symbol} : AreTrees g ss ([] : List (Tree α τ)) ↔ ss = [] := by
  rw [AreTrees]

@[simp] theorem areTrees_cons {s : Symbol} {ss : List Symbol} {t : Tree α τ} {ts : List (Tree α τ)} :
    AreTrees g (s :: ss) (t :: ts) ↔ IsTree g s t ∧ AreTrees g ss ts := by
  rw [AreTrees]
  constructor
  · rintro ⟨_, _, he, h⟩
    obtain ⟨rfl, rfl⟩ := List.cons.inj he
    exact h
  · intro h
    exact ⟨s, ss, rfl, h⟩

/-- A tree of a terminal is a token that stands for it. -/
theorem IsTree.exists_leaf {t : Terminal} {tree : Tree α τ} (h : IsTree g (.terminal t) tree) :
    ∃ token, tree = .leaf token ∧ StandsFor token t := by
  cases tree with
  | leaf token =>
    rw [IsTree] at h
    obtain ⟨u, hu, htoken⟩ := h
    obtain rfl := Symbol.terminal.inj hu
    exact ⟨token, rfl, htoken⟩
  | node p children =>
    rw [IsTree] at h
    exact absurd h.2.1 Symbol.noConfusion

/-- A tree of a non-terminal is a node of one of its productions. -/
theorem IsTree.exists_node {n : NonTerminal} {tree : Tree α τ} (h : IsTree g (.nonterminal n) tree) :
    ∃ p children, tree = .node p children ∧ p ∈ g.productions.tail ∧ p.head = n ∧ AreTrees g p.body children := by
  cases tree with
  | leaf token =>
    rw [IsTree] at h
    obtain ⟨t, ht, _⟩ := h
    cases ht
  | node p children =>
    rw [IsTree] at h
    obtain ⟨hp, hn, hc⟩ := h
    exact ⟨p, children, rfl, hp, (Symbol.nonterminal.inj hn).symm, hc⟩

theorem AreTrees.length_eq {ss : List Symbol} {ts : List (Tree α τ)} (h : AreTrees g ss ts) :
    ts.length = ss.length := by
  induction ts generalizing ss with
  | nil => rw [areTrees_nil.mp h]; rfl
  | cons t ts ih =>
    rw [AreTrees] at h
    obtain ⟨s, ss', rfl, _, h⟩ := h
    rw [List.length_cons, List.length_cons, ih h]

theorem areTrees_nil_left {ts : List (Tree α τ)} : AreTrees g [] ts ↔ ts = [] := by
  constructor
  · intro h
    exact List.length_eq_zero_iff.mp h.length_eq
  · rintro rfl
    exact areTrees_nil.mpr rfl

/-- Trees of a text begin with a tree of its first symbol. -/
theorem areTrees_cons_left {s : Symbol} {ss : List Symbol} {ts : List (Tree α τ)} :
    AreTrees g (s :: ss) ts ↔ ∃ t ts', ts = t :: ts' ∧ IsTree g s t ∧ AreTrees g ss ts' := by
  constructor
  · intro h
    cases ts with
    | nil => cases areTrees_nil.mp h
    | cons t ts => exact ⟨t, ts, rfl, areTrees_cons.mp h⟩
  · rintro ⟨t, ts, rfl, h⟩
    exact areTrees_cons.mpr h

/-- Forests of two texts are one of the whole if the first has as many trees as its text has symbols. -/
theorem areTrees_append_iff {ss ss' : List Symbol} {ts ts' : List (Tree α τ)} (hl : ts.length = ss.length) :
    AreTrees g (ss ++ ss') (ts ++ ts') ↔ AreTrees g ss ts ∧ AreTrees g ss' ts' := by
  induction ts generalizing ss with
  | nil =>
    obtain rfl := List.length_eq_zero_iff.mp hl.symm
    simp
  | cons t ts ih =>
    cases ss with
    | nil => cases hl
    | cons s ss =>
      simp only [List.cons_append, areTrees_cons, ih (Nat.succ.inj hl), and_assoc]

theorem forestLeaves_append {ts ts' : List (Tree α τ)} :
    forestLeaves (ts ++ ts') = forestLeaves ts ++ forestLeaves ts' := by
  induction ts with
  | nil => rfl
  | cons t ts ih => simp only [List.cons_append, forestLeaves, ih, List.append_assoc]

theorem forestPostorder_append {ts ts' : List (Tree α τ)} :
    forestPostorder (ts ++ ts') = forestPostorder ts ++ forestPostorder ts' := by
  induction ts with
  | nil => rfl
  | cons t ts ih => simp only [List.cons_append, forestPostorder, ih, List.append_assoc]

/-! ## From trees to derivations -/

namespace Grammar

theorem RightDerivesBy.append {ps qs : List (Production α)} {u v w : List Symbol} (h : g.RightDerivesBy ps u v)
    (h' : g.RightDerivesBy qs v w) : g.RightDerivesBy (ps ++ qs) u w := by
  induction h with
  | nil => exact h'
  | cons hp hs _ ih => exact .cons hp hs (ih h')

end Grammar

mutual

/-- The leaves of a tree spell a text, and the productions from the last one back derive it from the right. -/
theorem IsTree.exists_rightDerivesBy : ∀ {t : Tree α τ} {s : Symbol}, IsTree g s t → ∃ w, Spells t.leaves w ∧
    ∀ (x : List Symbol) (v : List Terminal), g.RightDerivesBy t.postorder.reverse (x ++ s :: v.map Symbol.terminal)
      (x ++ (w ++ v).map Symbol.terminal)
  | .leaf token, s, h => by
    rw [IsTree] at h
    obtain ⟨t, rfl, ht⟩ := h
    exact ⟨[t], .cons ht .nil, fun x v => .nil _⟩
  | .node p children, s, h => by
    rw [IsTree] at h
    obtain ⟨hp, rfl, h⟩ := h
    obtain ⟨w, hw, hd⟩ := h.exists_rightDerivesBy
    refine ⟨w, by rwa [Tree.leaves], fun x v => ?_⟩
    rw [Tree.postorder, List.reverse_append]
    exact .cons (List.mem_of_mem_tail hp) ⟨x, v, rfl, rfl⟩ (hd x v)

theorem AreTrees.exists_rightDerivesBy : ∀ {ts : List (Tree α τ)} {ss : List Symbol}, AreTrees g ss ts →
    ∃ w, Spells (forestLeaves ts) w ∧ ∀ (x : List Symbol) (v : List Terminal),
      g.RightDerivesBy (forestPostorder ts).reverse (x ++ ss ++ v.map Symbol.terminal)
        (x ++ (w ++ v).map Symbol.terminal)
  | [], ss, h => by
    obtain rfl := areTrees_nil.mp h
    refine ⟨[], .nil, fun x v => ?_⟩
    rw [List.append_nil]
    exact .nil _
  | t :: ts, ss, h => by
    rw [AreTrees] at h
    obtain ⟨s, ss, rfl, ht, hts⟩ := h
    obtain ⟨w, hw, hd⟩ := ht.exists_rightDerivesBy
    obtain ⟨w', hw', hd'⟩ := hts.exists_rightDerivesBy
    refine ⟨w ++ w', hw.append hw', fun x v => ?_⟩
    -- the text behind the first symbol is derived first
    have h₁ := hd' (x ++ [s]) v
    have h₂ := hd x (w' ++ v)
    rw [forestPostorder, List.reverse_append]
    simp only [List.append_assoc, List.cons_append, List.nil_append] at h₁ h₂ ⊢
    exact h₁.append h₂

end

/-- **The post-order of a tree, read backwards, is a rightmost derivation of what the leaves spell.** -/
theorem IsTree.rightDerivesBy_postorder {s : Symbol} {t : Tree α τ} (h : IsTree g s t) {w : List Terminal}
    (hw : Spells t.leaves w) : g.RightDerivesBy t.postorder.reverse [s] (w.map Symbol.terminal) := by
  obtain ⟨w', hw', hd⟩ := h.exists_rightDerivesBy
  obtain rfl := hw.unique hw'
  simpa using hd [] []

/-- The leaves of trees spell what their symbols yield. -/
theorem AreTrees.exists_yields {ss : List Symbol} {ts : List (Tree α τ)} (h : AreTrees g ss ts) :
    ∃ w, Spells (forestLeaves ts) w ∧ g.Yields ss w := by
  obtain ⟨w, hw, hd⟩ := h.exists_rightDerivesBy
  have := (hd [] []).rightDerives
  simp only [List.nil_append, List.map_nil, List.append_nil] at this
  exact ⟨w, hw, Grammar.rightDerives_iff_yields.mp this⟩

/-! ## From derivations to trees -/

theorem exists_areTrees_of_yields {ss : List Symbol} {w : List Terminal} (h : g.Yields ss w)
    (hss : .nonterminal augmentedStart ∉ ss) : ∀ {tokens : List (Option (Token τ))}, Spells tokens w →
      ∃ ts : List (Tree α τ), AreTrees g ss ts ∧ forestLeaves ts = tokens := by
  induction h with
  | nil =>
    intro tokens ht
    cases ht
    exact ⟨[], areTrees_nil.mpr rfl, rfl⟩
  | @terminal t ss w _ ih =>
    intro tokens ht
    cases ht with
    | @cons token _ rest _ hst hrest =>
      obtain ⟨ts, hts, rfl⟩ := ih (fun h => hss (List.mem_cons_of_mem _ h)) hrest
      refine ⟨.leaf token :: ts, areTrees_cons.mpr ⟨?_, hts⟩, rfl⟩
      rw [IsTree]
      exact ⟨t, rfl, hst⟩
  | @nonterminal p ss u w hp _ _ ihb ih =>
    intro tokens ht
    have hne : p.head ≠ augmentedStart := by
      intro he
      exact hss (by rw [he]; exact List.mem_cons_self)
    have hu := List.forall₂_take_append tokens u w ht
    have hw := List.forall₂_drop_append tokens u w ht
    obtain ⟨children, hch, hleaves⟩ := ihb (Grammar.augmentedStart_notMem_body hp) hu
    obtain ⟨ts, hts, hrest⟩ := ih (fun h => hss (List.mem_cons_of_mem _ h)) hw
    refine ⟨.node p children :: ts, areTrees_cons.mpr ⟨?_, hts⟩, ?_⟩
    · rw [IsTree]
      refine ⟨Grammar.mem_tail_iff.mpr ⟨hp, ?_⟩, rfl, hch⟩
      rintro rfl
      exact hne rfl
    · rw [forestLeaves, Tree.leaves, hleaves, hrest, List.take_append_drop]

/-- **Every text that the start symbol derives is spelled by the leaves of a tree.** -/
theorem exists_isTree_of_derives {w : List Terminal} (h : g.Derives [.nonterminal g.start] (w.map Symbol.terminal))
    {tokens : List (Option (Token τ))} (ht : Spells tokens w) :
    ∃ t : Tree α τ, IsTree g (.nonterminal g.start) t ∧ t.leaves = tokens := by
  have hstart : .nonterminal augmentedStart ∉ [Symbol.nonterminal g.start] := by
    intro hm
    have hn := Symbol.nonterminal.inj (List.mem_singleton.mp hm)
    exact Grammar.ne_augmentedStart_of_mem_body Grammar.augmented_mem List.mem_cons_self hn.symm
  obtain ⟨ts, hts, rfl⟩ := exists_areTrees_of_yields (Grammar.derives_iff_yields.mp h) hstart ht
  obtain ⟨t, rfl⟩ := List.length_eq_one_iff.mp hts.length_eq
  refine ⟨t, (areTrees_cons.mp hts).1, ?_⟩
  rw [forestLeaves, forestLeaves, List.append_nil]

end CanonicalLR
