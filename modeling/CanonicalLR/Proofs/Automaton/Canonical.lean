import CanonicalLR.Proofs.Item.Closure
import Mathlib.Data.List.Sublists

/-!
# The canonical automaton is the goto graph

The states of the canonical automaton are the sets that goto reaches from the closure of the initial item, each once
(`mem_states_iff`, `nodup_states`): there are no more of them than sets of proper items, so the search ends by itself.
Its transitions are the gotos between its states (`get?_transitions_iff`).

`ItemSet.after` follows goto over a text of symbols, `Automaton.follow?` follows transitions. They meet the same sets as
long as these are not empty (`follow?_eq_some_iff`).
-/

namespace CanonicalLR

variable {α : Type}

/-- The set that goto leads to from a set over the symbols of a text. -/
def ItemSet.after (g : Grammar α) (s : ItemSet) (γ : List Symbol) : ItemSet := γ.foldl (fun s x => goto g s.toList x) s

/-- The set that goto leads to from the closure of the initial item. -/
def itemsAfter (g : Grammar α) (γ : List Symbol) : ItemSet := (closure g [initialItem]).after g γ

/-- After the text, a production can be completed on the terminal, or the terminal stands after a dot. -/
def Grammar.Expects (g : Grammar α) (γ : List Symbol) (t : Terminal) : Prop :=
  (∃ p ∈ g.productions, p.item p.body.length t ∈ itemsAfter g γ) ∨ .terminal t ∈ (itemsAfter g γ).nextSymbols g

/-- The state that transitions lead to from a state over the symbols of a text. -/
def Automaton.follow? (a : Automaton α) : Int → List Symbol → Option Int
  | i, [] => some i
  | i, x :: xs => (a.transitions.get? (i, .symbol x)).bind fun j => a.follow? j xs

variable {g : Grammar α}

@[simp] theorem grammar_canonicalAutomaton : (canonicalAutomaton g).grammar = g := rfl

/-! ## States -/

/-- A set of proper items. -/
def IsProperSet (g : Grammar α) (s : ItemSet) : Prop := ∀ it ∈ s, it ∈ properItems g

instance (s : ItemSet) : Decidable (IsProperSet g s) :=
  inferInstanceAs (Decidable (∀ it ∈ s.toList, it ∈ properItems g))

/-- The sets of proper items. -/
def properSets (g : Grammar α) : List ItemSet := (SortedSet.ofList (properItems g)).toList.sublists.map SortedSet.ofList

theorem mem_properSets {s : ItemSet} (hs : IsProperSet g s) : s ∈ properSets g := by
  let all : ItemSet := .ofList (properItems g)
  have hf : s.toList = all.toList.filter (· ∈ s) := by
    refine SortedSet.eq_of_pairwise_of_mem s.increasing (all.increasing.filter _) fun it => ?_
    rw [List.mem_filter, decide_eq_true_eq]
    refine ⟨fun h => ⟨SortedSet.mem_ofList.mpr (hs it h), h⟩, fun h => h.2⟩
  have hsub : s.toList.Sublist all.toList := hf ▸ List.filter_sublist
  refine List.mem_map.mpr ⟨s.toList, List.mem_sublists.mpr hsub, ?_⟩
  exact SortedSet.ext_mem fun it => SortedSet.mem_ofList

theorem nodup_toList (s : ItemSet) : s.toList.Nodup := by
  refine s.increasing.imp fun {a b} hab he => ?_
  rw [he, Std.compare_self] at hab
  cases hab

theorem length_properSets_le : (properSets g).length ≤ stateBound g := by
  have hsub : (SortedSet.ofList (properItems g)).toList ⊆ properItems g := fun it hit => SortedSet.mem_ofList.mp hit
  have hlen := (nodup_toList (.ofList (properItems g))).length_le_of_subset hsub
  rw [properSets, List.length_map, List.length_sublists]
  exact Nat.pow_le_pow_right (by omega) hlen

theorem isProperSet_goto {s : ItemSet} (hs : IsProperSet g s) (x : Symbol) : IsProperSet g (goto g s.toList x) :=
  properItems_of_mem_goto hs

theorem covers_targets :
    Search.Covers (ItemSet.targets g) ((properSets g).filter (IsProperSet g))
      [closure g [initialItem]] (stateBound g) where
  starts_mem s hs := by
    rw [List.mem_singleton.mp hs, List.mem_filter]
    have h : IsProperSet g (closure g [initialItem]) := properItems_of_mem_closure
    exact ⟨mem_properSets h, decide_eq_true h⟩
  next_mem s hs t ht := by
    obtain ⟨x, _, rfl⟩ := List.mem_map.mp ht
    have h : IsProperSet g (goto g s.toList x) :=
      isProperSet_goto (of_decide_eq_true (List.mem_filter.mp hs).2) x
    exact List.mem_filter.mpr ⟨mem_properSets h, decide_eq_true h⟩
  length_le := (List.length_filter_le _ _).trans length_properSets_le

/-- The states are the sets that goto reaches from the closure of the initial item. -/
theorem mem_states_iff {s : ItemSet} :
    s ∈ (canonicalAutomaton g).states ↔ Search.Reached (ItemSet.targets g) [closure g [initialItem]] s :=
  Search.mem_reach_iff covers_targets

/-- No two states are the same set. -/
theorem nodup_states : (canonicalAutomaton g).states.Nodup := Search.nodup_reach covers_targets

/-- A set has one number. -/
theorem eq_of_getElem?_states {n m : Nat} {s : ItemSet} (hn : (canonicalAutomaton g).states[n]? = some s)
    (hm : (canonicalAutomaton g).states[m]? = some s) : n = m := by
  obtain ⟨_, hs⟩ := List.getElem?_eq_some_iff.mp hn
  obtain ⟨_, hs'⟩ := List.getElem?_eq_some_iff.mp hm
  exact nodup_states.getElem_inj_iff.mp (hs.trans hs'.symm)

theorem goto_mem_states {s : ItemSet} (hs : s ∈ (canonicalAutomaton g).states) {x : Symbol}
    (hx : x ∈ s.nextSymbols g) : goto g s.toList x ∈ (canonicalAutomaton g).states :=
  mem_states_iff.mpr ((mem_states_iff.mp hs).step (List.mem_map_of_mem hx))

/-- What holds of the closure of the initial item and is kept by goto over a symbol after a dot holds of all states. -/
theorem states_induction {P : ItemSet → Prop} (hstart : P (closure g [initialItem]))
    (hstep : ∀ s, P s → ∀ x ∈ s.nextSymbols g, P (goto g s.toList x)) :
    ∀ s ∈ (canonicalAutomaton g).states, P s := by
  intro s hs
  have h := mem_states_iff.mp hs
  induction h with
  | start h => exact List.mem_singleton.mp h ▸ hstart
  | step hr ht ih =>
    obtain ⟨x, hx, rfl⟩ := List.mem_map.mp ht
    exact hstep _ (ih (mem_states_iff.mpr hr)) x hx

theorem isProperSet_of_mem_states : ∀ s ∈ (canonicalAutomaton g).states, IsProperSet g s :=
  states_induction properItems_of_mem_closure fun _ hs x _ => isProperSet_goto hs x

/-- The lookahead of an item in a state is a terminal of the grammar. -/
theorem mem_terminals_of_item_mem {s : ItemSet} (hs : s ∈ (canonicalAutomaton g).states) {p : Production α}
    (hp : p ∈ g.productions) {k : Nat} {t : Terminal} (h : p.item k t ∈ s) : t ∈ g.terminals := by
  obtain ⟨q, hq, _, _, u, hu, he⟩ := mem_properItems_iff.mp (isProperSet_of_mem_states s hs _ h)
  obtain ⟨-, -, rfl⟩ := item_inj hp hq he
  exact hu

/-- A symbol after a dot in a state stands in a body. -/
theorem exists_mem_body_of_mem_nextSymbols {s : ItemSet} (hs : s ∈ (canonicalAutomaton g).states) {x : Symbol}
    (hx : x ∈ s.nextSymbols g) : ∃ p ∈ g.productions, x ∈ p.body := by
  obtain ⟨it, hit, hn⟩ := mem_nextSymbols_iff.mp hx
  obtain ⟨p, hp, k, _, t, _, rfl⟩ := mem_properItems_iff.mp (isProperSet_of_mem_states s hs it hit)
  rw [next_item hp] at hn
  exact ⟨p, hp, List.mem_of_getElem? hn⟩

/-- The first state is the closure of the initial item. -/
theorem getElem?_states_zero : (canonicalAutomaton g).states[0]? = some (closure g [initialItem]) :=
  Search.getElem?_reach_zero

/-! ## Transitions -/

theorem targets_of_mem_canonicalGraph {e : ItemSet × List ItemSet} (he : e ∈ canonicalGraph g) :
    e.2 = (e.1.nextSymbols g).map (goto g e.1.toList) := (Search.reached_of_mem_graph he).2

theorem getElem?_states_iff {n : Nat} {s : ItemSet} :
    (canonicalAutomaton g).states[n]? = some s ↔ ∃ e, (canonicalGraph g)[n]? = some e ∧ e.1 = s := by
  show ((canonicalGraph g).map Prod.fst)[n]? = some s ↔ _
  rw [List.getElem?_map, Option.map_eq_some_iff]

theorem mem_transitionsOf_iff {e : (Int × Key) × Int} :
    e ∈ transitionsOf g (canonicalGraph g) ↔ ∃ (n : Nat) (s : ItemSet) (x : Symbol),
      (canonicalAutomaton g).states[n]? = some s ∧ x ∈ s.nextSymbols g ∧
      e = (((n : Int), .symbol x), ((canonicalAutomaton g).states.idxOf (goto g s.toList x) : Int)) := by
  simp only [transitionsOf, List.mem_flatMap, List.mem_map]
  constructor
  · rintro ⟨⟨d, n⟩, hd, ⟨x, t⟩, hxt, rfl⟩
    have hn : (canonicalGraph g)[n]? = some d := by simpa using List.mem_zipIdx_iff_getElem?.mp hd
    have ht := targets_of_mem_canonicalGraph (List.mem_of_getElem? hn)
    rw [ht, ← List.map_prod_left_eq_zip] at hxt
    obtain ⟨y, hy, he⟩ := List.mem_map.mp hxt
    obtain ⟨rfl, rfl⟩ := Prod.mk.inj he
    exact ⟨n, d.1, y, getElem?_states_iff.mpr ⟨d, hn, rfl⟩, hy, rfl⟩
  · rintro ⟨n, s, x, hn, hx, rfl⟩
    obtain ⟨d, hd, rfl⟩ := getElem?_states_iff.mp hn
    have ht := targets_of_mem_canonicalGraph (List.mem_of_getElem? hd)
    refine ⟨(d, n), List.mem_zipIdx_iff_getElem?.mpr hd, (x, goto g d.1.toList x), ?_, rfl⟩
    rw [ht, ← List.map_prod_left_eq_zip]
    exact List.mem_map.mpr ⟨x, hx, rfl⟩

/-- No source and symbol have two transitions. -/
theorem nodup_keys_transitionsOf : ((transitionsOf g (canonicalGraph g)).map Prod.fst).Nodup := by
  rw [transitionsOf, List.map_flatMap, List.nodup_flatMap]
  constructor
  · rintro ⟨d, n⟩ hd
    have ht := targets_of_mem_canonicalGraph (List.fst_mem_of_mem_zipIdx hd)
    rw [ht, ← List.map_prod_left_eq_zip, List.map_map, List.map_map]
    refine (nodup_distinct : (d.1.nextSymbols g).Nodup).map fun x y hxy => ?_
    simpa using hxy
  · have hi : (((canonicalGraph g).zipIdx).map Prod.snd).Nodup := by
      rw [List.zipIdx_map_snd]
      exact List.nodup_range'
    refine (List.pairwise_map.mp hi).imp fun {a b} hab => ?_
    intro k hka hkb
    obtain ⟨_, ha, rfl⟩ := List.mem_map.mp hka
    obtain ⟨_, hb, he⟩ := List.mem_map.mp hkb
    obtain ⟨_, _, rfl⟩ := List.mem_map.mp ha
    obtain ⟨_, _, rfl⟩ := List.mem_map.mp hb
    simp only [Prod.mk.injEq, Int.natCast_inj] at he
    exact hab he.1.symm

/-- **The transitions are the gotos between states.** -/
theorem get?_transitions_iff {i j : Int} {x : Symbol} :
    (canonicalAutomaton g).transitions.get? (i, .symbol x) = some j ↔ ∃ (n m : Nat) (s : ItemSet),
      i = n ∧ j = m ∧ (canonicalAutomaton g).states[n]? = some s ∧ x ∈ s.nextSymbols g ∧
      (canonicalAutomaton g).states[m]? = some (goto g s.toList x) := by
  have hget : (canonicalAutomaton g).transitions.get? (i, .symbol x) = some j ↔
      ((i, .symbol x), j) ∈ transitionsOf g (canonicalGraph g) :=
    OrderedMap.get?_ofList_eq_some_iff nodup_keys_transitionsOf
  rw [hget, mem_transitionsOf_iff]
  constructor
  · rintro ⟨n, s, y, hn, hy, he⟩
    simp only [Prod.mk.injEq, Key.symbol.injEq] at he
    obtain ⟨⟨rfl, rfl⟩, rfl⟩ := he
    have hm := goto_mem_states (List.mem_of_getElem? hn) hy
    exact ⟨n, _, s, rfl, rfl, hn, hy, List.getElem?_idxOf hm⟩
  · rintro ⟨n, m, s, rfl, rfl, hn, hx, hm⟩
    refine ⟨n, s, x, hn, hx, ?_⟩
    obtain ⟨hlt, hs⟩ := List.getElem?_eq_some_iff.mp hm
    rw [← hs, nodup_states.idxOf_getElem m hlt]

/-- The transitions of a state are its gotos over the symbols after a dot. -/
theorem get?_transitions_natCast_iff {n : Nat} {s : ItemSet} {x : Symbol} {j : Int}
    (hn : (canonicalAutomaton g).states[n]? = some s) :
    (canonicalAutomaton g).transitions.get? ((n : Int), .symbol x) = some j ↔ x ∈ s.nextSymbols g ∧ ∃ m : Nat, j = m ∧
      (canonicalAutomaton g).states[m]? = some (goto g s.toList x) := by
  rw [get?_transitions_iff]
  constructor
  · rintro ⟨n', m, s', hnn, rfl, hn', hx, hm⟩
    obtain rfl : n = n' := by omega
    obtain rfl : s = s' := Option.some.inj (hn.symm.trans hn')
    exact ⟨hx, m, rfl, hm⟩
  · rintro ⟨hx, m, rfl, hm⟩
    exact ⟨n, m, s, rfl, rfl, hn, hx, hm⟩

/-- A state has a transition over every symbol after a dot. -/
theorem exists_transition {n : Nat} {s : ItemSet} {x : Symbol} (hn : (canonicalAutomaton g).states[n]? = some s)
    (hx : x ∈ s.nextSymbols g) : ∃ m : Nat, (canonicalAutomaton g).transitions.get? (n, .symbol x) = some (m : Int) ∧
      (canonicalAutomaton g).states[m]? = some (goto g s.toList x) := by
  have hm := goto_mem_states (List.mem_of_getElem? hn) hx
  have hm' := List.getElem?_idxOf hm
  exact ⟨_, (get?_transitions_natCast_iff hn).mpr ⟨hx, _, rfl, hm'⟩, hm'⟩

/-! ## Following a text -/

theorem after_empty {s : ItemSet} (hs : ∀ it, it ∉ s) (γ : List Symbol) : ∀ it, it ∉ s.after g γ := by
  induction γ generalizing s with
  | nil => exact hs
  | cons x γ ih =>
    refine ih fun it hit => ?_
    obtain ⟨it', hit', _⟩ := mem_nextSymbols_iff.mp (exists_mem_goto_iff.mp ⟨it, hit⟩)
    exact hs it' hit'

theorem itemsAfter_append_singleton (γ : List Symbol) (x : Symbol) :
    itemsAfter g (γ ++ [x]) = goto g (itemsAfter g γ).toList x := by
  simp [itemsAfter, ItemSet.after, List.foldl_append]

theorem itemsAfter_mem_states {γ : List Symbol} {it : Item} (h : it ∈ itemsAfter g γ) :
    itemsAfter g γ ∈ (canonicalAutomaton g).states := by
  induction γ using List.reverseRecOn generalizing it with
  | nil => exact List.mem_of_getElem? getElem?_states_zero
  | append_singleton γ x ih =>
    rw [itemsAfter_append_singleton] at h ⊢
    have hx : x ∈ (itemsAfter g γ).nextSymbols g := exists_mem_goto_iff.mp ⟨it, h⟩
    obtain ⟨it', hit', _⟩ := mem_nextSymbols_iff.mp hx
    exact goto_mem_states (ih hit') hx

/-- Transitions lead over a text just if the set that goto leads to is not empty, and to the state that is that set. -/
theorem follow?_eq_some_iff {n : Nat} {s : ItemSet} (hn : (canonicalAutomaton g).states[n]? = some s)
    (hs : ∃ it, it ∈ s) {γ : List Symbol} {j : Int} :
    (canonicalAutomaton g).follow? n γ = some j ↔ (∃ it, it ∈ s.after g γ) ∧ ∃ m : Nat, j = m ∧
      (canonicalAutomaton g).states[m]? = some (s.after g γ) := by
  induction γ generalizing n s with
  | nil =>
    simp only [Automaton.follow?, Option.some.injEq, ItemSet.after, List.foldl_nil]
    constructor
    · rintro rfl
      exact ⟨hs, n, rfl, hn⟩
    · rintro ⟨-, m, rfl, hm⟩
      rw [eq_of_getElem?_states hn hm]
  | cons x γ ih =>
    simp only [Automaton.follow?]
    by_cases hx : x ∈ s.nextSymbols g
    · obtain ⟨m, hm, hm'⟩ := exists_transition hn hx
      rw [hm, Option.bind_some]
      exact ih hm' (exists_mem_goto_iff.mpr hx)
    · have hnone : (canonicalAutomaton g).transitions.get? ((n : Int), .symbol x) = none := by
        refine Option.eq_none_iff_forall_ne_some.mpr fun i hi => ?_
        exact hx ((get?_transitions_natCast_iff hn).mp hi).1
      rw [hnone]
      refine ⟨fun h => absurd h.symm (Option.some_ne_none j), ?_⟩
      rintro ⟨⟨it, hit⟩, -⟩
      exact absurd hit (after_empty (fun it' hit' => hx (exists_mem_goto_iff.mp ⟨it', hit'⟩)) γ it)

/-- Where the set after a text has an item, so that it goes on, the next symbol stands after a dot. -/
theorem mem_nextSymbols_of_mem_itemsAfter {γ z : List Symbol} {x : Symbol} {it : Item}
    (h : it ∈ itemsAfter g (γ ++ x :: z)) : x ∈ (itemsAfter g γ).nextSymbols g := by
  have hγ : itemsAfter g (γ ++ x :: z) = (goto g (itemsAfter g γ).toList x).after g z := by
    simp [itemsAfter, ItemSet.after, List.foldl_append]
  by_contra hx
  rw [hγ] at h
  exact after_empty (fun it' hit' => hx (exists_mem_goto_iff.mp ⟨it', hit'⟩)) z it h

/-- The set after a text is a state if it has an item. -/
theorem exists_state_of_mem_itemsAfter {γ : List Symbol} {it : Item} (h : it ∈ itemsAfter g γ) :
    ∃ n : Nat, (canonicalAutomaton g).states[n]? = some (itemsAfter g γ) :=
  ⟨_, List.getElem?_idxOf (itemsAfter_mem_states h)⟩

/-- Every state is the set after some text. -/
theorem exists_itemsAfter_eq {s : ItemSet} (hs : s ∈ (canonicalAutomaton g).states) : ∃ γ, s = itemsAfter g γ := by
  refine states_induction (P := fun s => ∃ γ, s = itemsAfter g γ) ⟨[], rfl⟩ ?_ s hs
  rintro _ ⟨γ, rfl⟩ x _
  exact ⟨γ ++ [x], (itemsAfter_append_singleton γ x).symm⟩

end CanonicalLR
