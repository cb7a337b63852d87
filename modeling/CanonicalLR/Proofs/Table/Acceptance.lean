import CanonicalLR.Proofs.Table.Canonical
import CanonicalLR.Proofs.Table.Conflict

/-!
# The table accepts in one cell

Accepting completes production 0, whose head stands in no body and whose items only ever have the end marker for their
lookahead. So one state completes it, the one behind the start symbol (`mem_and_accepts_iff`), and only its cell on the
end marker offers it (`accept_mem_offered_iff`).

There may be other offers in that cell, but they do not win: the end marker stands in no body, so it is never shifted,
and no rule is earlier than production 0 (`chosen_eq_accept`). Hence the table accepts in this cell and in no other,
whatever its conflicts are (`exists_acceptsOnlyIn`).
-/

namespace CanonicalLR

open Grammar

variable {α : Type} {g : Grammar α} {n : Nat} {s : ItemSet} {t : Terminal}

/-! ## Items that accept -/

/-- An item of production 0 with the dot at the end of its body. -/
def Item.Accepts (g : Grammar α) (it : Item) : Prop := it.production = 0 ∧ it.isComplete? g = some true

theorem isComplete?_item {p : Production α} (hp : p ∈ g.productions) {k : Nat} :
    (p.item k t).isComplete? g = some true ↔ k = p.body.length := by
  have hprod : g.production? (p.item k t).production = some p := production?_number hp
  have hdot : (p.item k t).dot = p.body.length ↔ k = p.body.length := Int.natCast_inj
  simp only [Item.isComplete?, hprod, Option.map_some, Option.some.injEq, decide_eq_true_eq, hdot]

/-- The augmented production is completed in the set after the start symbol only, and there on the end marker only. -/
theorem item_augmented_mem_iff (hs : s ∈ (canonicalAutomaton g).states) :
    g.augmented.item g.augmented.body.length t ∈ s ↔ t = endMark ∧ s = itemsAfter g g.augmented.body := by
  constructor
  · intro h
    obtain ⟨γ, rfl⟩ := exists_itemsAfter_eq hs
    obtain ⟨rfl, rfl⟩ := item_augmented_mem_itemsAfter h
    exact ⟨rfl, rfl⟩
  · rintro ⟨rfl, hbody⟩
    rw [hbody]
    exact item_augmented_length_mem_itemsAfter

/-! ## Offers to accept -/

/-- An entry of a table is an action that is offered in some state on some terminal. -/
theorem exists_offered_of_get?_action {a : Automaton α} {k : Int × Key} {act : Action}
    (hk : a.table.action.get? k = some act) : ∃ (n : Nat) (t : Terminal) (s : ItemSet),
      k = ((n : Int), .terminal t) ∧ a.states[n]? = some s ∧ act ∈ a.offered n s t := by
  obtain ⟨n, t, -, -, rfl⟩ := mem_action_keys (OrderedMap.mem_keys_iff.mpr ⟨act, hk⟩)
  obtain ⟨s, hn, -⟩ := get?_action_iff.mp hk
  exact ⟨n, t, s, rfl, hn, mem_offered_of_get?_action hk hn⟩

/-- Accepting is offered in the set after the start symbol only, and there on the end marker only. -/
theorem accept_mem_offered_iff (hn : (canonicalAutomaton g).states[n]? = some s) :
    .accept ∈ (canonicalAutomaton g).offered n s t ↔ t = endMark ∧ s = itemsAfter g g.augmented.body := by
  rw [← item_augmented_mem_iff (List.mem_of_getElem? hn), mem_offered_canonical_iff hn]
  constructor
  · rintro (⟨p, hp, hit, hact⟩ | ⟨-, m, hact, -⟩)
    · obtain rfl := (number_eq_zero_iff hp).mp (completing_inj (i := 0) hact).symm
      exact hit
    · cases hact
  · exact fun hit => .inl ⟨_, augmented_mem, hit, rfl⟩

/-- The end marker stands in no body, so no state shifts it. -/
theorem shift_notMem_offered_endMark (hn : (canonicalAutomaton g).states[n]? = some s) {j : Int} :
    .shift j ∉ (canonicalAutomaton g).offered n s endMark := by
  intro h
  rcases (mem_offered_canonical_iff hn).mp h with ⟨p, _, _, hact⟩ | ⟨hx, -⟩
  · exact completing_ne_shift hact.symm
  · obtain ⟨p, hp, hb⟩ := exists_mem_body_of_mem_nextSymbols (List.mem_of_getElem? hn) hx
    exact ne_endMark_of_mem_body hp hb rfl

/-- Where accepting is offered, it is chosen: there is no shift, and no rule is earlier than production 0. -/
theorem chosen_eq_accept (hn : (canonicalAutomaton g).states[n]? = some s)
    (h : .accept ∈ (canonicalAutomaton g).offered n s t) {r : Resolution}
    (hr : resolve ((canonicalAutomaton g).offered n s t) = some r) : r.chosen = .accept := by
  obtain ⟨rfl, -⟩ := (accept_mem_offered_iff hn).mp h
  have hchoice := resolve_isChoiceOf cellCandidates_offered hr
  rcases (mem_offered_canonical_iff hn).mp hchoice.chosen_mem with ⟨p, hp, -, hact⟩ | ⟨-, m, hact, -⟩
  · by_contra hne
    have hrule : r.chosen.ruleNumber? = some (p.number : Int) := hact ▸ ruleNumber?_completing _
    have hnshift : r.chosen.isShift = false := ruleNumber?_isSome_iff.mp (by rw [hrule]; rfl)
    obtain ⟨k, l, hk, hl, hkl⟩ := hchoice.earliest_wins hnshift .accept h (Ne.symm hne)
    obtain rfl := Option.some.inj (hrule.symm.trans hk)
    obtain rfl : 0 = l := Option.some.inj hl
    omega
  · exact absurd (hact ▸ hchoice.chosen_mem) (shift_notMem_offered_endMark hn)

/-- No conflict rejects accepting. -/
theorem rejected_ne_accept {c : Conflict} (hc : c ∈ (canonicalAutomaton g).table.conflicts) :
    c.rejected ≠ .accept := by
  obtain ⟨n, s, t, r, hn, -, hr, act, hact, rfl⟩ := mem_conflicts_iff.mp hc
  obtain ⟨hoffered, hne⟩ := ((resolve_spec cellCandidates_offered hr).2 act).mp hact
  rintro rfl
  exact hne (chosen_eq_accept hn hoffered hr).symm

/-! ## The accepting cell -/

variable {f : Nat}

/-- An item that accepts is in the state of the set after the start symbol only, and has the end marker for its
lookahead. -/
theorem mem_and_accepts_iff (hf : (canonicalAutomaton g).states[f]? = some (itemsAfter g g.augmented.body))
    (hn : (canonicalAutomaton g).states[n]? = some s) {it : Item} :
    it ∈ s ∧ it.Accepts g ↔ n = f ∧ it = ⟨0, 1, endMark⟩ := by
  have hstate : s = itemsAfter g g.augmented.body ↔ n = f :=
    ⟨fun h => eq_of_getElem?_states hn (h ▸ hf), fun h => Option.some.inj (hn.symm.trans (h ▸ hf))⟩
  have hmem := item_augmented_mem_iff (t := endMark) (List.mem_of_getElem? hn)
  rw [hstate] at hmem
  constructor
  · rintro ⟨hit, h0, hend⟩
    obtain ⟨p, hp, k, -, t, -, rfl⟩ := exists_item_of_mem_states hn hit
    obtain rfl := (number_eq_zero_iff hp).mp (Int.natCast_inj.mp h0)
    obtain rfl := (isComplete?_item hp).mp hend
    obtain ⟨rfl, h⟩ := (item_augmented_mem_iff (List.mem_of_getElem? hn)).mp hit
    exact ⟨hstate.mp h, rfl⟩
  · rintro ⟨rfl, rfl⟩
    exact ⟨hmem.mpr ⟨rfl, rfl⟩, rfl, (isComplete?_item augmented_mem).mpr rfl⟩

/-- The table accepts in the state of the set after the start symbol only, and there on the end marker only. -/
theorem get?_action_eq_accept_iff
    (hf : (canonicalAutomaton g).states[f]? = some (itemsAfter g g.augmented.body)) {k : Int × Key} :
    (canonicalAutomaton g).table.action.get? k = some .accept ↔ k = ((f : Int), .terminal endMark) := by
  constructor
  · intro hk
    obtain ⟨n, t, s, rfl, hn, hoffered⟩ := exists_offered_of_get?_action hk
    obtain ⟨rfl, hbody⟩ := (accept_mem_offered_iff hn).mp hoffered
    rw [eq_of_getElem?_states hn (hbody ▸ hf)]
  · rintro rfl
    have hoffered : .accept ∈ (canonicalAutomaton g).offered f (itemsAfter g g.augmented.body) endMark :=
      (accept_mem_offered_iff hf).mpr ⟨rfl, rfl⟩
    obtain ⟨act, hact⟩ := exists_get?_action hf endMark_mem_terminals hoffered
    obtain ⟨s, hs, -, r, hr, rfl⟩ := get?_action_iff.mp hact
    obtain rfl := Option.some.inj (hf.symm.trans hs)
    rw [hact, chosen_eq_accept hf hoffered hr]

/-- The first state leads over the start symbol to the set after it. -/
theorem start_leads_to (hf : (canonicalAutomaton g).states[f]? = some (itemsAfter g g.augmented.body)) :
    .nonterminal g.start ∈ (closure g [initialItem]).nextSymbols g ∧ ∃ m : Nat, (f : Int) = m ∧
      (canonicalAutomaton g).states[m]? = some (goto g (closure g [initialItem]).toList (.nonterminal g.start)) := by
  have hgoto : itemsAfter g g.augmented.body = goto g (closure g [initialItem]).toList (.nonterminal g.start) :=
    itemsAfter_append_singleton [] _
  exact ⟨mem_nextSymbols_of_mem_itemsAfter (γ := []) (z := []) item_augmented_length_mem_itemsAfter, f, rfl, hgoto ▸ hf⟩

/-- No cell on the end marker is a shift. -/
theorem get?_action_endMark_ne_shift {i j : Int} :
    (canonicalAutomaton g).table.action.get? (i, .terminal endMark) ≠ some (.shift j) := by
  intro hi
  obtain ⟨n, t, s, hk, hn, hoffered⟩ := exists_offered_of_get?_action hi
  obtain ⟨rfl, ht⟩ := Prod.mk.inj hk
  obtain rfl : endMark = t := by simpa using ht
  exact shift_notMem_offered_endMark hn hoffered

/-- A table of a grammar accepts in the cell of one state on the end marker, and in no other. -/
structure ParsingTable.AcceptsOnlyIn (table : ParsingTable α) (g : Grammar α) (f : Nat) : Prop where
  /-- The state is one of the automaton. -/
  lt_size : f < (canonicalAutomaton g).size
  /-- It is the one that holds an item of production 0 with the dot at the end. The lookahead is the end marker. -/
  mem_and_accepts_iff : ∀ (n : Nat) (s : ItemSet) (it : Item), (canonicalAutomaton g).states[n]? = some s →
    (it ∈ s ∧ it.Accepts g ↔ n = f ∧ it = ⟨0, 1, endMark⟩)
  /-- It is the target of the first state over the start symbol. -/
  transition : (canonicalAutomaton g).transitions.get? (0, .nonterminal g.start) = some (f : Int)
  /-- It is the target in the table. -/
  goto : table.goto.get? (0, .nonterminal g.start) = some (f : Int)
  /-- The table accepts in its cell on the end marker only. -/
  accept_iff : ∀ k, table.action.get? k = some .accept ↔ k = ((f : Int), .terminal endMark)
  /-- The table never shifts the end marker. -/
  not_shift : ∀ i j, table.action.get? (i, .terminal endMark) ≠ some (.shift j)
  /-- No conflict rejects accepting. -/
  not_rejected : ∀ c ∈ table.conflicts, c.rejected ≠ .accept

/-- **Every grammar has a table that accepts in one cell only**, with conflicts or without. -/
theorem exists_acceptsOnlyIn (g : Grammar α) :
    ∃ f table, (canonicalAutomaton g).compile = .ok table ∧ table.AcceptsOnlyIn g f := by
  obtain ⟨f, hf⟩ := exists_state_of_mem_itemsAfter (item_augmented_length_mem_itemsAfter (g := g))
  exact ⟨f, _, compile_canonicalAutomaton, {
    lt_size := (List.getElem?_eq_some_iff.mp hf).1
    mem_and_accepts_iff := fun _ _ _ hn => CanonicalLR.mem_and_accepts_iff hf hn
    transition := (get?_transitions_natCast_iff getElem?_states_zero).mpr (start_leads_to hf)
    goto := (get?_goto_canonical_iff getElem?_states_zero).mpr (start_leads_to hf)
    accept_iff := fun _ => get?_action_eq_accept_iff hf
    not_shift := fun _ _ => get?_action_endMark_ne_shift
    not_rejected := fun _ => rejected_ne_accept }⟩

end CanonicalLR
