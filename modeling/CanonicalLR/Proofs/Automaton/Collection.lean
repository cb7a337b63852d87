import CanonicalLR.Proofs.Automaton.Viable
import CanonicalLR.Proofs.Table.Canonical

/-!
# The canonical collection

What the canonical automaton of a grammar is, told from outside (`Automaton.IsCollection`): its first state is the
closure of the initial item, its states are different sets of proper items, none of them empty, and all within reach of
the first; its transitions are the gotos that are not empty, each to the state that is the goto; and the views of the
transitions and of the states say the same. `isCollection_canonicalAutomaton` says that it is all this.
-/

namespace CanonicalLR

variable {α : Type} {g : Grammar α} {n : Nat} {s : ItemSet}

/-- The automaton is the canonical collection of item sets of a grammar. -/
structure Automaton.IsCollection (a : Automaton α) (g : Grammar α) : Prop where
  /-- The first state is the closure of the initial item. -/
  first : a.states[0]? = some (closure g [initialItem])
  /-- No state is empty. -/
  nonempty : ∀ s ∈ a.states, ∃ it, it ∈ s
  /-- States with the same items are the same state. -/
  unique : ∀ (n m : Nat) (s t : ItemSet), a.states[n]? = some s → a.states[m]? = some t →
    (∀ it, it ∈ s ↔ it ∈ t) → n = m
  /-- Every item has a production of the grammar, a dot in or at an end of its body, and a terminal of the grammar. -/
  items : ∀ s ∈ a.states, ∀ it ∈ s, (0 ≤ it.production ∧ it.production < g.size) ∧
    (∃ p, g.production? it.production = some p ∧ 0 ≤ it.dot ∧ it.dot ≤ p.body.length) ∧
    ∃ t ∈ g.terminals, it.lookahead = .terminal t
  /-- Transitions leave states over symbols. -/
  source : ∀ k ∈ a.transitions.keys, ∃ (n : Nat) (x : Symbol), n < a.size ∧ k = ((n : Int), .symbol x)
  /-- A state has a transition over the symbols after its dots, which are those over which goto is not empty. -/
  transition : ∀ (n : Nat) (s : ItemSet) (x : Symbol), a.states[n]? = some s →
    (((n : Int), Key.symbol x) ∈ a.transitions.keys ↔ x ∈ s.nextSymbols g) ∧
      (x ∈ s.nextSymbols g ↔ ∃ it, it ∈ goto g s.toList x)
  /-- A transition leads to the state that is the goto. -/
  target : ∀ (n : Nat) (s : ItemSet) (x : Symbol) (j : Int), a.states[n]? = some s →
    a.transitions.get? ((n : Int), .symbol x) = some j →
    ∃ m : Nat, j = m ∧ a.states[m]? = some (goto g s.toList x)
  /-- Transitions lead from the first state to every state. -/
  reachable : ∀ n < a.size, ∃ γ, a.follow? 0 γ = some (n : Int)
  /-- A state is found by its items. -/
  stateOf : ∀ (n : Nat) (s : ItemSet), a.states[n]? = some s → a.stateOf? s = some n
  /-- The target of a state over a symbol is that of the transition. -/
  targets : ∀ n < a.size, ∀ x : Symbol, a.target? n x = some (a.transitions.get? ((n : Int), .symbol x))
  /-- The successors of a state are the targets of its transitions. -/
  successors : ∀ n < a.size, ∃ m, a.successors? n = some m ∧ ∀ k, m.get? k = a.transitions.get? ((n : Int), k)

/-! ## Items -/

/-- No state is empty: some item moved there. -/
theorem exists_item_of_mem_canonical : ∀ s ∈ (canonicalAutomaton g).states, ∃ it, it ∈ s := by
  refine states_induction ⟨initialItem, mem_closure_of_mem List.mem_cons_self⟩ ?_
  intro s _ x hx
  exact exists_mem_goto_iff.mpr hx

/-- A proper item lies in the grammar with its production, its dot and its lookahead. -/
theorem bounds_of_mem_properItems {it : Item} (h : it ∈ properItems g) :
    (0 ≤ it.production ∧ it.production < g.size) ∧
      (∃ p, g.production? it.production = some p ∧ 0 ≤ it.dot ∧ it.dot ≤ p.body.length) ∧
      ∃ t ∈ g.terminals, it.lookahead = .terminal t := by
  obtain ⟨p, hp, k, hk, t, ht, rfl⟩ := mem_properItems_iff.mp h
  have hlt : p.number < g.productions.length := (List.getElem?_eq_some_iff.mp (Grammar.getElem?_number hp)).1
  refine ⟨⟨Int.natCast_nonneg _, ?_⟩, ⟨p, Grammar.production?_number hp, Int.natCast_nonneg _, ?_⟩, t, ht, rfl⟩
  · exact Int.ofNat_lt.mpr hlt
  · exact Int.ofNat_le.mpr hk

/-! ## States -/

/-- States with the same items are the same state. -/
theorem eq_of_states_eq {m : Nat} {t : ItemSet} (hn : (canonicalAutomaton g).states[n]? = some s)
    (hm : (canonicalAutomaton g).states[m]? = some t) (h : ∀ it, it ∈ s ↔ it ∈ t) : n = m := by
  obtain rfl : s = t := SortedSet.ext_mem h
  exact eq_of_getElem?_states hn hm

/-- Transitions lead from the first state to every state. -/
theorem exists_follow?_eq (hn : (canonicalAutomaton g).states[n]? = some s) :
    ∃ γ, (canonicalAutomaton g).follow? 0 γ = some (n : Int) := by
  have hs := List.mem_of_getElem? hn
  obtain ⟨γ, rfl⟩ := exists_itemsAfter_eq hs
  exact ⟨γ, Grammar.follow?_zero_eq_some_iff.mpr ⟨exists_item_of_mem_canonical _ hs, n, rfl, hn⟩⟩

/-- A list that holds one entry only, if perhaps many times, ends with it. -/
theorem getLast?_eq_of_forall_eq {β : Type} {x : β} {xs : List β} (hx : x ∈ xs) (h : ∀ y ∈ xs, y = x) :
    xs.getLast? = some x := by
  cases hl : xs.getLast? with
  | none =>
    rw [List.getLast?_eq_none_iff.mp hl] at hx
    exact absurd hx List.not_mem_nil
  | some y => rw [h y (List.mem_of_getLast? hl)]

/-- A state is found by its items. -/
theorem stateOf?_eq (hn : (canonicalAutomaton g).states[n]? = some s) :
    (canonicalAutomaton g).stateOf? s = some n := by
  have hmem : ∀ e, e ∈ (canonicalAutomaton g).states.zipIdx.filter (fun e => e.1 = s) ↔
      (canonicalAutomaton g).states[e.2]? = some e.1 ∧ e.1 = s := by
    intro e
    rw [List.mem_filter, List.mem_zipIdx_iff_getElem?, decide_eq_true_eq]
  have hlast : ((canonicalAutomaton g).states.zipIdx.filter fun e => e.1 = s).getLast? = some (s, n) := by
    refine getLast?_eq_of_forall_eq ((hmem (s, n)).mpr ⟨hn, rfl⟩) fun e he => ?_
    obtain ⟨hm, hs⟩ := (hmem e).mp he
    exact Prod.ext hs (eq_of_getElem?_states hm (hs ▸ hn))
  rw [Automaton.stateOf?, hlast]
  rfl

/-! ## Transitions -/

/-- Transitions leave states over symbols. -/
theorem source_of_mem_transitions {k : Int × Key} (hk : k ∈ (canonicalAutomaton g).transitions.keys) :
    ∃ (n : Nat) (x : Symbol), n < (canonicalAutomaton g).size ∧ k = ((n : Int), .symbol x) := by
  obtain ⟨e, he, rfl⟩ := List.mem_map.mp (OrderedMap.mem_keys_ofList.mp hk)
  obtain ⟨n, s, x, hn, _, rfl⟩ := mem_transitionsOf_iff.mp he
  exact ⟨n, x, (List.getElem?_eq_some_iff.mp hn).1, rfl⟩

/-- A state has a transition over the symbols after its dots. -/
theorem mem_keys_transitions_iff (hn : (canonicalAutomaton g).states[n]? = some s) {x : Symbol} :
    ((n : Int), Key.symbol x) ∈ (canonicalAutomaton g).transitions.keys ↔ x ∈ s.nextSymbols g := by
  rw [OrderedMap.mem_keys_iff]
  constructor
  · rintro ⟨j, hj⟩
    exact ((get?_transitions_natCast_iff hn).mp hj).1
  · intro hx
    obtain ⟨m, hm, _⟩ := exists_transition hn hx
    exact ⟨_, hm⟩

/-- The successors of a state are the targets of its transitions. -/
theorem get?_outgoing_eq (hn : n < (canonicalAutomaton g).size) (k : Key) :
    ((canonicalAutomaton g).outgoing n).get? k = (canonicalAutomaton g).transitions.get? ((n : Int), k) := by
  refine Option.ext fun j => ?_
  rw [get?_outgoing sources_nonneg]
  exact and_iff_right hn

theorem successors?_eq (hn : n < (canonicalAutomaton g).size) :
    (canonicalAutomaton g).successors? n = some ((canonicalAutomaton g).outgoing n) := by
  rw [Automaton.successors?, Position.place_natCast, if_pos hn]
  rfl

/-- **The canonical automaton is the canonical collection.** -/
theorem isCollection_canonicalAutomaton (g : Grammar α) : (canonicalAutomaton g).IsCollection g where
  first := getElem?_states_zero
  nonempty := exists_item_of_mem_canonical
  unique _ _ _ _ hn hm h := eq_of_states_eq hn hm h
  items s hs it hit := bounds_of_mem_properItems (isProperSet_of_mem_states s hs it hit)
  source _ hk := source_of_mem_transitions hk
  transition _ _ _ hn := ⟨mem_keys_transitions_iff hn, exists_mem_goto_iff.symm⟩
  target _ _ _ _ hn hj := ((get?_transitions_natCast_iff hn).mp hj).2
  reachable _ hn := exists_follow?_eq (List.getElem?_eq_getElem hn)
  stateOf _ _ hn := stateOf?_eq hn
  targets _ hn x := by rw [Automaton.target?, successors?_eq hn, Option.map_some, get?_outgoing_eq hn]
  successors _ hn := ⟨_, successors?_eq hn, get?_outgoing_eq hn⟩

end CanonicalLR
