import CanonicalLR.Proofs.Automaton.Call
import CanonicalLR.Proofs.Table.Cell

/-!
# The table of the canonical automaton

The canonical automaton has no faults, so it has a table (`compile_canonicalAutomaton`). In its states an item at the
end of a body offers to complete its production on its lookahead, and an item before a terminal offers a shift
(`mem_offered_canonical_iff`). There are no conflicts just if the items leave no choice
(`conflicts_eq_nil_iff_isDeterministic`).
-/

namespace CanonicalLR

open Grammar

variable {α : Type} {g : Grammar α} {n : Nat} {s : ItemSet} {p : Production α} {k : Nat} {t : Terminal} {act : Action}
  {γ : List Symbol}

/-! ## Transitions of a state -/

theorem sources_nonneg : ∀ e ∈ (canonicalAutomaton g).transitions.keys, 0 ≤ e.1 := by
  intro e he
  obtain ⟨d, hd, rfl⟩ := List.mem_map.mp (OrderedMap.mem_keys_ofList.mp he)
  obtain ⟨n, _, _, _, _, rfl⟩ := mem_transitionsOf_iff.mp hd
  exact Int.natCast_nonneg n

theorem get?_outgoing_canonical_iff (hn : (canonicalAutomaton g).states[n]? = some s) {x : Symbol} {j : Int} :
    ((canonicalAutomaton g).outgoing n).get? (.symbol x) = some j ↔ x ∈ s.nextSymbols g ∧ ∃ m : Nat, j = m ∧
      (canonicalAutomaton g).states[m]? = some (goto g s.toList x) := by
  rw [get?_outgoing sources_nonneg, get?_transitions_natCast_iff hn]
  exact and_iff_right (List.getElem?_eq_some_iff.mp hn).1

/-- **The targets of the table are the gotos of the states.** -/
theorem get?_goto_canonical_iff (hn : (canonicalAutomaton g).states[n]? = some s) {x : NonTerminal} {j : Int} :
    (canonicalAutomaton g).table.goto.get? ((n : Int), .nonterminal x) = some j ↔
      .nonterminal x ∈ s.nextSymbols g ∧ ∃ m : Nat, j = m ∧
        (canonicalAutomaton g).states[m]? = some (goto g s.toList (.nonterminal x)) := by
  rw [get?_goto_iff, ← get?_outgoing_canonical_iff hn]
  exact and_iff_right (List.getElem?_eq_some_iff.mp hn).1

/-! ## Offers of a state -/

/-- What a proper item stands for. -/
theorem action?_item (hp : p ∈ g.productions) {successors : OrderedMap Key Int} :
    Item.action? g successors (p.item k t) =
      if k = p.body.length then
        if p.number = 0 then some (.terminal endMark, .accept) else some (.terminal t, .reduce p.number)
      else
        match p.body[k]? with
        | some (.terminal u) => (successors.get? (.terminal u)).map fun j => (.terminal u, .shift j)
        | _ => none := by
  have hdot : (p.item k t).dot = p.body.length ↔ k = p.body.length := Int.natCast_inj
  have hget : Position.get? p.body (p.item k t).dot = p.body[k]? := Position.get?_natCast
  have hprod : g.production? (p.item k t).production = some p := production?_number hp
  unfold Item.action?
  simp only [hprod, hdot, hget]
  rfl

theorem completing_of_ne_zero {i : Nat} (h : i ≠ 0) : Action.completing i = .reduce i := by
  have hi : (i : Int) ≠ 0 := by omega
  rw [Action.completing, if_neg hi]

theorem completing_inj {i j : Nat} (h : Action.completing i = .completing j) : i = j := by
  have hi := ruleNumber?_completing i
  rw [h, ruleNumber?_completing] at hi
  exact Int.ofNat.inj (Option.some.inj hi).symm

theorem completing_ne_shift {i j : Int} : Action.completing i ≠ .shift j := by
  unfold Action.completing
  split <;> simp

theorem exists_item_of_mem_states (hn : (canonicalAutomaton g).states[n]? = some s) {it : Item} (hit : it ∈ s) :
    ∃ p ∈ g.productions, ∃ k ≤ p.body.length, ∃ t ∈ g.terminals, it = p.item k t :=
  mem_properItems_iff.mp (isProperSet_of_mem_states s (List.mem_of_getElem? hn) it hit)

/-- **What the items of a state offer**: to complete a production on its lookahead, or to shift. -/
theorem mem_offered_canonical_iff (hn : (canonicalAutomaton g).states[n]? = some s) :
    act ∈ (canonicalAutomaton g).offered n s t ↔
      (∃ p ∈ g.productions, p.item p.body.length t ∈ s ∧ act = .completing p.number) ∨
      (.terminal t ∈ s.nextSymbols g ∧ ∃ m : Nat, act = .shift m ∧
        (canonicalAutomaton g).states[m]? = some (goto g s.toList (.terminal t))) := by
  rw [mem_offered_iff]
  constructor
  · rintro ⟨it, hit, ha⟩
    obtain ⟨p, hp, k, _, u, _, rfl⟩ := exists_item_of_mem_states hn hit
    rw [grammar_canonicalAutomaton, action?_item hp] at ha
    split at ha
    · rename_i hk
      subst hk
      refine .inl ⟨p, hp, ?_⟩
      split at ha
      · rename_i h0
        obtain rfl := (number_eq_zero_iff hp).mp h0
        obtain ⟨γ, rfl⟩ := exists_itemsAfter_eq (List.mem_of_getElem? hn)
        obtain ⟨rfl, -⟩ := item_augmented_mem_itemsAfter hit
        simp only [Option.some.injEq, Prod.mk.injEq, Key.symbol.injEq, Symbol.terminal.injEq] at ha
        obtain ⟨rfl, rfl⟩ := ha
        exact ⟨hit, rfl⟩
      · rename_i h0
        simp only [Option.some.injEq, Prod.mk.injEq, Key.symbol.injEq, Symbol.terminal.injEq] at ha
        obtain ⟨rfl, rfl⟩ := ha
        exact ⟨hit, (completing_of_ne_zero h0).symm⟩
    · split at ha
      · rename_i v hv
        obtain ⟨j, hj, he⟩ := Option.map_eq_some_iff.mp ha
        simp only [Prod.mk.injEq, Key.symbol.injEq, Symbol.terminal.injEq] at he
        obtain ⟨rfl, rfl⟩ := he
        obtain ⟨hx, m, rfl, hm⟩ := (get?_outgoing_canonical_iff hn).mp hj
        exact .inr ⟨hx, m, rfl, hm⟩
      · cases ha
  · rintro (⟨p, hp, hit, rfl⟩ | ⟨hx, m, rfl, hm⟩)
    · refine ⟨_, hit, ?_⟩
      rw [grammar_canonicalAutomaton, action?_item hp, if_pos rfl]
      split
      · rename_i h0
        obtain rfl := (number_eq_zero_iff hp).mp h0
        obtain ⟨γ, rfl⟩ := exists_itemsAfter_eq (List.mem_of_getElem? hn)
        obtain ⟨rfl, -⟩ := item_augmented_mem_itemsAfter hit
        rfl
      · rename_i h0
        rw [completing_of_ne_zero h0]
    · obtain ⟨it, hit, hnext⟩ := mem_nextSymbols_iff.mp hx
      obtain ⟨p, hp, k, _, u, _, rfl⟩ := exists_item_of_mem_states hn hit
      rw [next_item hp] at hnext
      have hk : k ≠ p.body.length := by
        have := (List.getElem?_eq_some_iff.mp hnext).1
        omega
      have hj := (get?_outgoing_canonical_iff hn).mpr ⟨hx, m, rfl, hm⟩
      refine ⟨_, hit, ?_⟩
      rw [grammar_canonicalAutomaton, action?_item hp, if_neg hk, hnext]
      simp only [hj, Option.map_some]

/-- A table that resolves the conflicts of the canonical automaton in some way: its targets are the gotos of the states,
and each of its actions is one that the items of the state offer. -/
structure ParsingTable.Resolves (table : ParsingTable α) (g : Grammar α) : Prop where
  grammar_eq : table.grammar = g
  goto_eq : table.goto = (canonicalAutomaton g).table.goto
  mem_offered : ∀ (n : Nat) (s : ItemSet) (t : Terminal) (act : Action), (canonicalAutomaton g).states[n]? = some s →
    table.action.get? ((n : Int), .terminal t) = some act → act ∈ (canonicalAutomaton g).offered n s t

/-- The table of the canonical automaton resolves its conflicts. -/
theorem resolves_canonical : (canonicalAutomaton g).table.Resolves g :=
  ⟨rfl, rfl, fun _ _ _ _ hn ha => mem_offered_of_get?_action ha hn⟩

/-- **A state expects the terminals on which it completes a production or shifts**, conflicts or not. -/
theorem mem_expected_canonical_iff (hn : (canonicalAutomaton g).states[n]? = some (itemsAfter g γ)) :
    t ∈ (canonicalAutomaton g).table.expected n ↔ g.Expects γ t := by
  have hstate := List.mem_of_getElem? hn
  rw [mem_expected_table_iff hn]
  constructor
  · rintro ⟨_, act, hact⟩
    rcases (mem_offered_canonical_iff hn).mp hact with ⟨p, hp, hit, -⟩ | ⟨hx, -⟩
    · exact .inl ⟨p, hp, hit⟩
    · exact .inr hx
  · rintro (⟨p, hp, hit⟩ | hx)
    · exact ⟨mem_terminals_of_item_mem hstate hp hit, _, (mem_offered_canonical_iff hn).mpr (.inl ⟨p, hp, hit, rfl⟩)⟩
    · obtain ⟨p, hp, hb⟩ := exists_mem_body_of_mem_nextSymbols hstate hx
      have hm := List.getElem?_idxOf (goto_mem_states hstate hx)
      exact ⟨mem_terminals_of_mem_body hp hb, _, (mem_offered_canonical_iff hn).mpr (.inr ⟨hx, _, rfl, hm⟩)⟩

/-! ## Determinism -/

/-- After no text can two productions be completed on one terminal, or one on a terminal that stands after a dot. -/
structure Grammar.IsDeterministic (g : Grammar α) : Prop where
  completion_unique : ∀ γ, ∀ p ∈ g.productions, ∀ q ∈ g.productions, ∀ t, p.item p.body.length t ∈ itemsAfter g γ →
    q.item q.body.length t ∈ itemsAfter g γ → p = q
  not_shift : ∀ γ, ∀ p ∈ g.productions, ∀ t, p.item p.body.length t ∈ itemsAfter g γ →
    .terminal t ∉ (itemsAfter g γ).nextSymbols g

/-- **There are no conflicts just if the items leave no choice.** -/
theorem conflicts_eq_nil_iff_isDeterministic :
    (canonicalAutomaton g).table.conflicts = [] ↔ g.IsDeterministic := by
  rw [conflicts_eq_nil_iff]
  constructor
  · intro h
    constructor
    · intro γ p hp q hq t hpi hqi
      obtain ⟨n, hn⟩ := exists_state_of_mem_itemsAfter hpi
      have ht := mem_terminals_of_item_mem (List.mem_of_getElem? hn) hp hpi
      have he := h n _ hn t ht _ ((mem_offered_canonical_iff hn).mpr (.inl ⟨p, hp, hpi, rfl⟩)) _
        ((mem_offered_canonical_iff hn).mpr (.inl ⟨q, hq, hqi, rfl⟩))
      exact eq_of_number_eq hp hq (completing_inj he)
    · intro γ p hp t hpi hx
      obtain ⟨n, hn⟩ := exists_state_of_mem_itemsAfter hpi
      have ht := mem_terminals_of_item_mem (List.mem_of_getElem? hn) hp hpi
      have hm := List.getElem?_idxOf (goto_mem_states (List.mem_of_getElem? hn) hx)
      have he := h n _ hn t ht _ ((mem_offered_canonical_iff hn).mpr (.inl ⟨p, hp, hpi, rfl⟩)) _
        ((mem_offered_canonical_iff hn).mpr (.inr ⟨hx, _, rfl, hm⟩))
      exact completing_ne_shift he
  · intro h n s hn t _ act hact act' hact'
    obtain ⟨γ, rfl⟩ := exists_itemsAfter_eq (List.mem_of_getElem? hn)
    rcases (mem_offered_canonical_iff hn).mp hact with ⟨p, hp, hpi, rfl⟩ | ⟨hx, m, rfl, _⟩
    · rcases (mem_offered_canonical_iff hn).mp hact' with ⟨q, hq, hqi, rfl⟩ | ⟨hx, _, rfl, _⟩
      · rw [h.completion_unique γ p hp q hq t hpi hqi]
      · exact absurd hx (h.not_shift γ p hp t hpi)
    · rcases (mem_offered_canonical_iff hn).mp hact' with ⟨q, hq, hqi, rfl⟩ | ⟨_, m', rfl, _⟩
      · exact absurd hx (h.not_shift γ q hq t hqi)
      · rw [cellCandidates_offered.shift_unique _ _ hact hact']

/-- After the text there is a choice on the terminal: two productions can be completed, or one, and the terminal stands
after a dot. -/
def Grammar.HasChoice (g : Grammar α) (γ : List Symbol) (t : Terminal) : Prop :=
  ∃ p ∈ g.productions, p.item p.body.length t ∈ itemsAfter g γ ∧
    ((∃ q ∈ g.productions, q ≠ p ∧ q.item q.body.length t ∈ itemsAfter g γ) ∨
      .terminal t ∈ (itemsAfter g γ).nextSymbols g)

/-- **There is a conflict just where the items leave a choice.** -/
theorem hasConflict_canonical_iff (hn : (canonicalAutomaton g).states[n]? = some (itemsAfter g γ)) :
    (canonicalAutomaton g).table.HasConflict n t ↔ g.HasChoice γ t := by
  have hstate := List.mem_of_getElem? hn
  rw [hasConflict_iff]
  constructor
  · rintro ⟨s, hs, -, act, hact, act', hact', hne⟩
    obtain rfl := Option.some.inj (hn.symm.trans hs)
    rcases (mem_offered_canonical_iff hn).mp hact with ⟨p, hp, hpi, rfl⟩ | ⟨hx, m, rfl, hm⟩
    · rcases (mem_offered_canonical_iff hn).mp hact' with ⟨q, hq, hqi, rfl⟩ | ⟨hx, _⟩
      · exact ⟨p, hp, hpi, .inl ⟨q, hq, fun he => hne (he ▸ rfl), hqi⟩⟩
      · exact ⟨p, hp, hpi, .inr hx⟩
    · rcases (mem_offered_canonical_iff hn).mp hact' with ⟨q, hq, hqi, rfl⟩ | ⟨_, m', rfl, _⟩
      · exact ⟨q, hq, hqi, .inr hx⟩
      · exact absurd (by rw [cellCandidates_offered.shift_unique _ _ hact hact']) hne
  · rintro ⟨p, hp, hpi, hother⟩
    have hact := (mem_offered_canonical_iff hn).mpr (.inl ⟨p, hp, hpi, rfl⟩)
    refine ⟨_, hn, mem_terminals_of_item_mem hstate hp hpi, _, hact, ?_⟩
    rcases hother with ⟨q, hq, hne, hqi⟩ | hx
    · refine ⟨_, (mem_offered_canonical_iff hn).mpr (.inl ⟨q, hq, hqi, rfl⟩), fun he => hne ?_⟩
      exact (eq_of_number_eq hp hq (completing_inj he)).symm
    · have hm := List.getElem?_idxOf (goto_mem_states hstate hx)
      exact ⟨_, (mem_offered_canonical_iff hn).mpr (.inr ⟨hx, _, rfl, hm⟩), completing_ne_shift⟩

/-- A grammar is deterministic just if there is no choice after any text. -/
theorem isDeterministic_iff : g.IsDeterministic ↔ ∀ γ t, ¬g.HasChoice γ t := by
  constructor
  · rintro hg γ t ⟨p, hp, hpi, ⟨q, hq, hne, hqi⟩ | hx⟩
    · exact hne (hg.completion_unique γ q hq p hp t hqi hpi)
    · exact hg.not_shift γ p hp t hpi hx
  · intro h
    constructor
    · intro γ p hp q hq t hpi hqi
      by_contra hne
      exact h γ t ⟨q, hq, hqi, .inl ⟨p, hp, hne, hpi⟩⟩
    · intro γ p hp t hpi hx
      exact h γ t ⟨p, hp, hpi, .inr hx⟩

/-! ## The automaton has a table -/

theorem fault?_item_eq_none (hn : (canonicalAutomaton g).states[n]? = some s) {it : Item} (hit : it ∈ s) :
    Item.fault? g ((canonicalAutomaton g).outgoing n) it = none := by
  obtain ⟨p, hp, k, hk, t, _, rfl⟩ := exists_item_of_mem_states hn hit
  have hdot : (p.item k t).dot = p.body.length ↔ k = p.body.length := Int.natCast_inj
  have hget : Position.get? p.body (p.item k t).dot = p.body[k]? := Position.get?_natCast
  have hprod : g.production? (p.item k t).production = some p := production?_number hp
  unfold Item.fault?
  simp only [hprod, hdot, hget]
  by_cases hend : k = p.body.length
  · rw [if_pos hend]
  · rw [if_neg hend]
    have hlt : k < p.body.length := by omega
    cases hx : p.body[k] with
    | nonterminal x => simp [List.getElem?_eq_getElem hlt, hx]
    | terminal u =>
      have hu : .terminal u ∈ s.nextSymbols g :=
        mem_nextSymbols_iff.mpr ⟨_, hit, by rw [next_item hp, List.getElem?_eq_getElem hlt, hx]⟩
      have hm := List.getElem?_idxOf (goto_mem_states (List.mem_of_getElem? hn) hu)
      have hj := (get?_outgoing_canonical_iff hn).mpr ⟨hu, _, rfl, hm⟩
      simp [List.getElem?_eq_getElem hlt, hx, hj]

theorem hasSymbols_of_mem_states (hn : (canonicalAutomaton g).states[n]? = some s) : s.hasSymbols = true := by
  refine ItemSet.hasSymbols_iff.mpr fun it hit => ?_
  obtain ⟨p, _, k, _, t, _, rfl⟩ := exists_item_of_mem_states hn hit
  rfl

/-- **The canonical automaton compiles to its table.** -/
theorem compile_canonicalAutomaton : (canonicalAutomaton g).compile = .ok (canonicalAutomaton g).table := by
  have hfault : (canonicalAutomaton g).fault? = none := by
    refine List.findSome?_eq_none_iff.mpr fun e he => ?_
    have hn : (canonicalAutomaton g).states[e.2]? = some e.1 := List.mem_zipIdx_iff_getElem?.mp he
    have hitems : e.1.toList.findSome? (Item.fault? g ((canonicalAutomaton g).outgoing e.2)) = none :=
      List.findSome?_eq_none_iff.mpr fun it hit => fault?_item_eq_none hn hit
    simp only [Automaton.stateFault?]
    rw [grammar_canonicalAutomaton, hitems]
    simp [hasSymbols_of_mem_states hn]
  rw [Automaton.compile, hfault]

end CanonicalLR
