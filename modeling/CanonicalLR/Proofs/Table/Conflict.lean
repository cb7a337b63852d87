import CanonicalLR.Proofs.Grammar.Analysis
import CanonicalLR.Proofs.Table.Cell

/-!
# Every cell is decided by its candidates

The items of a state give actions on terminals (`Automaton.Gives`), also in an automaton that is made by hand, if its
items lie within the grammar and it has the transitions that they ask for (`Automaton.IsWellMade`). Such an automaton
has a table, and `compile_decides` says what is in it: an action for each state and terminal on which one is given,
chosen by `Resolution.IsChoiceOf`, and a conflict for each other one. The conflicts stand in order of the states, of
the terminals and of the rules that lost.
-/

namespace CanonicalLR

variable {α : Type}

/-! ## Candidates -/

/-- What is asked of an automaton: its transitions leave states that are counted from the start, and its items have a
production, a dot in or at an end of the body, a symbol for a lookahead, and a transition if the dot stands before a
terminal. -/
structure Automaton.IsWellMade (a : Automaton α) : Prop where
  sources : ∀ k ∈ a.transitions.keys, 0 ≤ k.1 ∧ k.1 < a.size
  production : ∀ s ∈ a.states, ∀ it ∈ s, 0 ≤ it.production ∧ it.production < a.grammar.size
  dot : ∀ s ∈ a.states, ∀ it ∈ s, 0 ≤ it.dot ∧ it.dot ≤ (it.body a.grammar).length
  lookahead : ∀ s ∈ a.states, ∀ it ∈ s, ∃ x : Symbol, it.lookahead = .symbol x
  transition : ∀ (n : Nat) s, a.states[n]? = some s → ∀ it ∈ s, ∀ t : Terminal,
    it.next a.grammar = some (.terminal t) → ∃ j, a.transitions.get? ((n : Int), .terminal t) = some j

/-- The items of a state give an action on a terminal. An item at the end of its body accepts on the end marker if it is
one of production 0 and reduces on its lookahead if not, and one before the terminal shifts it. -/
inductive Automaton.Gives (a : Automaton α) (n : Nat) (s : ItemSet) : Terminal → Action → Prop
  | accept {it : Item} : it ∈ s → it.production = 0 → it.dot = (it.body a.grammar).length → Gives a n s endMark .accept
  | reduce {it : Item} {t : Terminal} : it ∈ s → it.production ≠ 0 → it.dot = (it.body a.grammar).length →
      it.lookahead = .terminal t → Gives a n s t (.reduce it.production)
  | shift {it : Item} {t : Terminal} {j : Int} : it ∈ s → it.next a.grammar = some (.terminal t) →
      a.transitions.get? ((n : Int), .terminal t) = some j → Gives a n s t (.shift j)

variable {a : Automaton α} {n : Nat} {s : ItemSet} {t : Terminal} {act : Action}

namespace Automaton.IsWellMade

variable (h : a.IsWellMade)
include h

theorem exists_production (hs : s ∈ a.states) {it : Item} (hit : it ∈ s) :
    ∃ p, a.grammar.production? it.production = some p ∧ (p.number : Int) = it.production ∧
      it.body a.grammar = p.body := by
  obtain ⟨hnn, hlt⟩ := h.production s hs it hit
  obtain ⟨p, hp, hnum⟩ := Grammar.exists_number_eq hnn hlt
  have hget : a.grammar.production? it.production = some p := hnum ▸ Grammar.production?_number hp
  exact ⟨p, hget, hnum, by simp only [Item.body, hget]; rfl⟩

theorem get?_outgoing (hn : n < a.size) {k : Key} {j : Int} :
    (a.outgoing n).get? k = some j ↔ a.transitions.get? ((n : Int), k) = some j := by
  rw [CanonicalLR.get?_outgoing fun k hk => (h.sources k hk).1]
  exact and_iff_right hn

/-- The action that an item of a state stands for. -/
theorem action?_eq (hs : s ∈ a.states) {it : Item} (hit : it ∈ s) {successors : OrderedMap Key Int} :
    Item.action? a.grammar successors it =
      if it.dot = (it.body a.grammar).length then
        if it.production = 0 then some (.terminal endMark, .accept) else some (it.lookahead, .reduce it.production)
      else
        match it.next a.grammar with
        | some (.terminal t) => (successors.get? (.terminal t)).map fun j => (.terminal t, .shift j)
        | _ => none := by
  obtain ⟨p, hp, hnum, hbody⟩ := h.exists_production hs hit
  have hdot : it.dot = p.body.length ↔ it.dot = (it.body a.grammar).length := by rw [hbody]
  have h0 : p.number = 0 ↔ it.production = 0 := by omega
  have hnext : it.next a.grammar = Position.get? p.body it.dot := by rw [Item.next, hbody]
  unfold Item.action?
  rw [hp, hnext]
  exact if_congr hdot (if_congr h0 rfl (by rw [hnum])) rfl

omit h in
/-- A dot before a symbol is not at the end. -/
theorem dot_ne_length_of_next {it : Item} {x : Symbol} (hx : it.next a.grammar = some x) :
    it.dot ≠ (it.body a.grammar).length := by
  intro hd
  rw [Item.next, hd, Position.get?_natCast, List.getElem?_eq_none (Nat.le_refl _)] at hx
  cases hx

/-- What the items of a state offer is what they give. -/
theorem mem_offered_iff (hn : a.states[n]? = some s) : act ∈ a.offered n s t ↔ a.Gives n s t act := by
  have hs := List.mem_of_getElem? hn
  have hout {k : Key} {j : Int} := h.get?_outgoing (List.getElem?_eq_some_iff.mp hn).1 (k := k) (j := j)
  rw [CanonicalLR.mem_offered_iff]
  constructor
  · rintro ⟨it, hit, ha⟩
    rw [h.action?_eq hs hit] at ha
    split at ha
    · rename_i hdot
      split at ha
      · rename_i h0
        cases ha
        exact .accept hit h0 hdot
      · rename_i h0
        obtain ⟨hl, rfl⟩ := Prod.mk.inj (Option.some.inj ha)
        exact .reduce hit h0 hdot hl
    · split at ha
      · rename_i u hu
        obtain ⟨j, hj, he⟩ := Option.map_eq_some_iff.mp ha
        cases he
        exact .shift hit hu (hout.mp hj)
      · cases ha
  · intro hg
    cases hg with
    | @accept it hit h0 hdot => exact ⟨it, hit, by rw [h.action?_eq hs hit, if_pos hdot, if_pos h0]⟩
    | @reduce it _ hit h0 hdot hl => exact ⟨it, hit, by rw [h.action?_eq hs hit, if_pos hdot, if_neg h0, hl]⟩
    | @shift it _ j hit hnext hj =>
      refine ⟨it, hit, ?_⟩
      rw [h.action?_eq hs hit, if_neg (dot_ne_length_of_next hnext), hnext]
      simp [hout.mpr hj]

theorem fault?_item_eq_none (hn : a.states[n]? = some s) {it : Item} (hit : it ∈ s) :
    Item.fault? a.grammar (a.outgoing n) it = none := by
  have hs := List.mem_of_getElem? hn
  obtain ⟨p, hp, -, hbody⟩ := h.exists_production hs hit
  obtain ⟨hnn, hle⟩ := h.dot s hs it hit
  obtain ⟨k, hk⟩ := Int.eq_ofNat_of_zero_le hnn
  rw [hbody] at hle
  simp only [Item.fault?, hp]
  split
  · rfl
  · rename_i hend
    have hlt : k < p.body.length := by omega
    have hget : Position.get? p.body it.dot = some p.body[k] := by
      rw [hk]
      exact Position.get?_natCast.trans (List.getElem?_eq_getElem hlt)
    cases hx : p.body[k] with
    | nonterminal x => simp [hget, hx]
    | terminal u =>
      rw [hx] at hget
      obtain ⟨j, hj⟩ := h.transition n s hn it hit u (by rw [Item.next, hbody]; exact hget)
      simp [hget, (h.get?_outgoing (List.getElem?_eq_some_iff.mp hn).1).mpr hj]

/-- The automaton has a table. -/
theorem compile_eq_ok : a.compile = .ok a.table := by
  have hfault : a.fault? = none := by
    refine List.findSome?_eq_none_iff.mpr fun e he => ?_
    have hn : a.states[e.2]? = some e.1 := List.mem_zipIdx_iff_getElem?.mp he
    have hitems : e.1.toList.findSome? (Item.fault? a.grammar (a.outgoing e.2)) = none :=
      List.findSome?_eq_none_iff.mpr fun it hit => h.fault?_item_eq_none hn hit
    have hsymbols : e.1.hasSymbols = true := by
      refine ItemSet.hasSymbols_iff.mpr fun it hit => ?_
      obtain ⟨x, hx⟩ := h.lookahead e.1 (List.mem_of_getElem? hn) it hit
      rw [hx]
      rfl
    simp only [Automaton.stateFault?, hitems, hsymbols, if_true]
  rw [Automaton.compile, hfault]

end Automaton.IsWellMade

/-! ## Conflicts of a cell -/

/-- The conflicts of a state. -/
def ParsingTable.conflictsIn (table : ParsingTable α) (n : Int) : List Conflict :=
  table.conflicts.filter fun c => c.state = n

/-- The conflicts of a state on a terminal. -/
def ParsingTable.conflictsOn (table : ParsingTable α) (n : Int) (t : Terminal) : List Conflict :=
  (table.conflictsIn n).filter fun c => c.terminal = .symbol t

/-- The conflicts of a row on a terminal are those of its cell on the terminal. -/
theorem Row.filter_conflicts {row : Row} : row.conflicts.filter (fun c => c.terminal = .symbol (.terminal t)) =
    Row.conflicts { row with cells := row.cells.filter fun c => c.1 = t } := by
  simp only [Row.conflicts]
  induction row.cells with
  | nil => rfl
  | cons c cells ih =>
    rw [List.flatMap_cons, List.filter_append, ih, List.filter_cons]
    by_cases hc : c.1 = t
    · simp [hc, List.filter_map, Function.comp_def]
    · simp [hc, List.filter_map, Function.comp_def]

theorem Row.state_of_mem_conflicts {row : Row} {c : Conflict} (hc : c ∈ row.conflicts) : c.state = row.state := by
  obtain ⟨_, _, hc⟩ := List.mem_flatMap.mp hc
  obtain ⟨_, _, rfl⟩ := List.mem_map.mp hc
  rfl

/-- Among rows in order, one has a given state. -/
theorem filter_rows_eq {rows : List Row} (hrows : rows.Pairwise fun r r' => r.state < r'.state) {row : Row}
    (h : row ∈ rows) : rows.filter (fun r => r.state = row.state) = [row] := by
  induction rows with
  | nil => cases h
  | cons r rows ih =>
    obtain ⟨hr, hrows⟩ := List.pairwise_cons.mp hrows
    rw [List.filter_cons]
    rcases List.mem_cons.mp h with rfl | h
    · have hnil : rows.filter (fun r => r.state = row.state) = [] :=
        List.filter_eq_nil_iff.mpr fun r hmem => by
          have := hr r hmem
          simp only [decide_eq_true_eq]
          omega
      rw [if_pos (decide_eq_true rfl), hnil]
    · have hlt := hr row h
      rw [if_neg (by simp only [decide_eq_true_eq]; omega), ih hrows h]

/-- The conflicts of a state, among those of some rows, are those of its rows. -/
theorem filter_flatMap_conflicts {rows : List Row} :
    (rows.flatMap Row.conflicts).filter (fun c => c.state = (n : Int)) =
      (rows.filter fun r => r.state = n).flatMap Row.conflicts := by
  induction rows with
  | nil => rfl
  | cons r rows ih =>
    rw [List.flatMap_cons, List.filter_append, ih, List.filter_cons]
    by_cases hr : r.state = n
    · rw [if_pos (decide_eq_true hr), List.flatMap_cons]
      congr 1
      refine List.filter_eq_self.mpr fun c hc => ?_
      rw [Row.state_of_mem_conflicts hc, hr]
      exact decide_eq_true rfl
    · have hnil : r.conflicts.filter (fun c => c.state = (n : Int)) = [] := by
        refine List.filter_eq_nil_iff.mpr fun c hc => ?_
        rw [Row.state_of_mem_conflicts hc]
        exact fun he => hr (Int.natCast_inj.mp (of_decide_eq_true he))
      rw [if_neg (by simpa using hr), hnil, List.nil_append]

/-- The conflicts of a state are those of its row. -/
theorem conflictsIn_eq (hn : a.states[n]? = some s) : a.table.conflictsIn n = (a.row n s).conflicts := by
  have hrow : a.row n s ∈ a.rows := mem_rows_iff.mpr ⟨n, s, hn, rfl⟩
  have hone : a.rows.filter (fun r => r.state = n) = [a.row n s] := filter_rows_eq pairwise_rows hrow
  show (a.rows.flatMap Row.conflicts).filter (fun c => c.state = (n : Int)) = _
  rw [filter_flatMap_conflicts, hone, List.flatMap_cons, List.flatMap_nil, List.append_nil]

/-- The conflicts of a state on a terminal are one for each action that is rejected there. -/
theorem conflictsOn_eq (hn : a.states[n]? = some s) (ht : t ∈ a.grammar.terminals) :
    a.table.conflictsOn n t = match resolve (a.offered n s t) with
      | none => []
      | some r => r.rejected.map fun act => ⟨n, .symbol t, r.kind, r.chosen, act⟩ := by
  rw [ParsingTable.conflictsOn, conflictsIn_eq hn, Row.filter_conflicts, filter_cells ht]
  cases resolve (a.offered n s t) with
  | none => rfl
  | some r => simp [Row.conflicts, Automaton.row]

/-! ## Order of conflicts -/

/-- The order in which conflicts stand: that of the states, then that in which the terminals are declared, then that of
the rules that lost. -/
inductive Conflict.Before (ts : List Terminal) (c c' : Conflict) : Prop
  | state : c.state < c'.state → Before ts c c'
  | terminal {t t' : Terminal} : c.state = c'.state → c.terminal = .symbol t → c'.terminal = .symbol t' →
      ts.idxOf t < ts.idxOf t' → Before ts c c'
  | rule : c.state = c'.state → c.terminal = c'.terminal → c.rejected.Precedes c'.rejected → Before ts c c'

theorem pairwise_idxOf {ts : List Terminal} (h : ts.Nodup) : ts.Pairwise fun t t' => ts.idxOf t < ts.idxOf t' := by
  refine List.pairwise_iff_getElem.mpr fun i j hi hj hij => ?_
  rwa [h.idxOf_getElem i hi, h.idxOf_getElem j hj]

theorem pairwise_row_conflicts : (a.row n s).conflicts.Pairwise (Conflict.Before a.grammar.terminals) := by
  rw [Row.conflicts, List.pairwise_flatMap]
  constructor
  · intro c hc
    obtain ⟨-, hr⟩ := mem_cells_iff.mp hc
    refine List.pairwise_map.mpr ((resolve_isChoiceOf cellCandidates_offered hr).ordered.imp fun h => ?_)
    exact .rule rfl rfl h
  · have hcells := (pairwise_idxOf a.grammar.nodup_terminals).sublist (map_fst_cells_sublist (n := n) (s := s))
    refine (List.pairwise_map.mp hcells).imp fun {c c'} hlt d hd d' hd' => ?_
    obtain ⟨_, _, rfl⟩ := List.mem_map.mp hd
    obtain ⟨_, _, rfl⟩ := List.mem_map.mp hd'
    exact .terminal rfl rfl rfl hlt

/-- **The conflicts stand in order** of the states, of the terminals and of the rules that lost. -/
theorem pairwise_conflicts : a.table.conflicts.Pairwise (Conflict.Before a.grammar.terminals) := by
  show (a.rows.flatMap Row.conflicts).Pairwise _
  rw [List.pairwise_flatMap]
  constructor
  · intro row hrow
    obtain ⟨n, s, _, rfl⟩ := mem_rows_iff.mp hrow
    exact pairwise_row_conflicts
  · refine pairwise_rows.imp fun {r r'} hlt c hc c' hc' => .state ?_
    rw [Row.state_of_mem_conflicts hc, Row.state_of_mem_conflicts hc']
    exact Int.ofNat_lt.mpr hlt

/-! ## Decisions -/

/-- A table decides between the actions that are given in a state on a terminal: it has an action just if one is given,
it chooses one of them, and has a conflict for each other one, in order of their rules. -/
structure ParsingTable.DecidesBetween (table : ParsingTable α) (n : Nat) (t : Terminal) (C : Action → Prop) : Prop where
  isSome_iff : (table.action.get? ((n : Int), .terminal t)).isSome ↔ ∃ act, C act
  choice : ∀ chosen, table.action.get? ((n : Int), .terminal t) = some chosen → ∃ kind rejected,
    Resolution.IsChoiceOf ⟨chosen, kind, rejected⟩ C ∧
      table.conflictsOn n t = rejected.map fun act => ⟨n, .symbol t, kind, chosen, act⟩
  no_choice : table.action.get? ((n : Int), .terminal t) = none → table.conflictsOn n t = []

/-- What the table of an automaton holds: a decision for each state and terminal and nothing else for terminals, the
conflicts of these decisions and no others, in order, and the transitions over non-terminals. -/
structure Automaton.DecidedBy (a : Automaton α) (table : ParsingTable α) : Prop where
  decides : ∀ (n : Nat) s, a.states[n]? = some s → ∀ t ∈ a.grammar.terminals, table.DecidesBetween n t (a.Gives n s t)
  cells : ∀ k ∈ table.action.keys, ∃ (n : Nat) (t : Terminal), n < a.size ∧ t ∈ a.grammar.terminals ∧
    k = ((n : Int), .terminal t)
  conflicts : ∀ c ∈ table.conflicts, ∃ (n : Nat) (t : Terminal), n < a.size ∧ t ∈ a.grammar.terminals ∧
    c ∈ table.conflictsOn n t
  ordered : table.conflicts.Pairwise (Conflict.Before a.grammar.terminals)
  gotos : ∀ (n : Nat), n < a.size → ∀ (x : NonTerminal) j,
    table.goto.get? ((n : Int), .nonterminal x) = some j ↔ a.transitions.get? ((n : Int), .nonterminal x) = some j

namespace Automaton.IsWellMade

variable (h : a.IsWellMade)
include h

theorem decidesBetween (hn : a.states[n]? = some s) (ht : t ∈ a.grammar.terminals) :
    a.table.DecidesBetween n t (a.Gives n s t) := by
  have hcandidates : (· ∈ a.offered n s t) = a.Gives n s t := funext fun act => propext (h.mem_offered_iff hn)
  have hget {chosen : Action} : a.table.action.get? ((n : Int), .terminal t) = some chosen ↔
      ∃ r, resolve (a.offered n s t) = some r ∧ r.chosen = chosen := by
    rw [get?_action_iff]
    constructor
    · rintro ⟨s', hn', -, hr⟩
      obtain rfl : s = s' := Option.some.inj (hn.symm.trans hn')
      exact hr
    · exact fun hr => ⟨s, hn, ht, hr⟩
  have hon := conflictsOn_eq hn ht
  rw [← hcandidates]
  refine ⟨?_, fun chosen hc => ?_, fun hnone => ?_⟩
  · rw [Option.isSome_iff_exists]
    constructor
    · rintro ⟨chosen, hc⟩
      exact ⟨chosen, mem_offered_of_get?_action hc hn⟩
    · rintro ⟨act, hact⟩
      exact exists_get?_action hn ht hact
  · obtain ⟨r, hr, rfl⟩ := hget.mp hc
    rw [hr] at hon
    exact ⟨r.kind, r.rejected, resolve_isChoiceOf cellCandidates_offered hr, hon⟩
  · cases hr : resolve (a.offered n s t) with
    | none => rw [hon, hr]
    | some r =>
      rw [hget.mpr ⟨r, hr, rfl⟩] at hnone
      cases hnone

end Automaton.IsWellMade

theorem mem_action_keys {k : Int × Key} (hk : k ∈ a.table.action.keys) : ∃ (n : Nat) (t : Terminal),
    n < a.size ∧ t ∈ a.grammar.terminals ∧ k = ((n : Int), .terminal t) := by
  rw [OrderedMap.keys, entries_action] at hk
  obtain ⟨e, he, rfl⟩ := List.mem_map.mp hk
  obtain ⟨row, hrow, he⟩ := List.mem_flatMap.mp he
  obtain ⟨n, s, hn, rfl⟩ := mem_rows_iff.mp hrow
  obtain ⟨c, hc, rfl⟩ := List.mem_map.mp he
  exact ⟨n, c.1, (List.getElem?_eq_some_iff.mp hn).1, (mem_cells_iff.mp hc).1, rfl⟩

theorem exists_conflictsOn {c : Conflict} (hc : c ∈ a.table.conflicts) : ∃ (n : Nat) (t : Terminal),
    n < a.size ∧ t ∈ a.grammar.terminals ∧ c ∈ a.table.conflictsOn n t := by
  obtain ⟨n, s, t, r, hn, ht, -, act, -, rfl⟩ := mem_conflicts_iff.mp hc
  refine ⟨n, t, (List.getElem?_eq_some_iff.mp hn).1, ht, ?_⟩
  rw [ParsingTable.conflictsOn, ParsingTable.conflictsIn, List.filter_filter]
  exact List.mem_filter.mpr ⟨hc, by simp⟩

/-- **Every cell of a table is decided by exactly its candidates, and nothing is lost.** -/
theorem compile_decides (a : Automaton α) (h : a.IsWellMade) : ∃ table, a.compile = .ok table ∧ a.DecidedBy table :=
  ⟨a.table, h.compile_eq_ok, {
    decides := fun _ _ hn _ ht => h.decidesBetween hn ht
    cells := fun _ hk => mem_action_keys hk
    conflicts := fun _ hc => exists_conflictsOn hc
    ordered := pairwise_conflicts
    gotos := fun n hn x j => by
      rw [get?_goto_iff, h.get?_outgoing hn]
      exact and_iff_right hn }⟩

namespace Sums

/-- An automaton with a single state, in which the end of a sum may accept it, reduce by either rule, or lead to a
sign. -/
def crowded : Automaton Unit where
  grammar := grammar
  states := [.ofList [⟨0, 1, endMark⟩, ⟨1, 1, endMark⟩, ⟨1, 3, endMark⟩, ⟨1, 3, .terminal plus⟩, ⟨2, 1, endMark⟩]]
  transitions := .ofList [((0, .terminal plus), 0)]
  sources := by decide

theorem isWellMade_crowded : crowded.IsWellMade where
  sources := by decide
  production := by
    have h : ∀ s ∈ crowded.states, ∀ it ∈ s.toList, 0 ≤ it.production ∧ it.production < crowded.grammar.size := by
      decide +kernel
    exact h
  dot := by
    have h : ∀ s ∈ crowded.states, ∀ it ∈ s.toList, 0 ≤ it.dot ∧ it.dot ≤ (it.body crowded.grammar).length := by
      decide +kernel
    exact h
  lookahead := by
    have h : ∀ s ∈ crowded.states, ∀ it ∈ s.toList, it.lookahead = .symbol plus ∨ it.lookahead = .symbol endMark := by
      decide +kernel
    exact fun s hs it hit => (h s hs it hit).elim (fun he => ⟨_, he⟩) fun he => ⟨_, he⟩
  transition := by
    have h : ∀ s ∈ crowded.states, ∀ it ∈ s.toList, it.next crowded.grammar = none ∨
        it.next crowded.grammar = some plus := by
      decide +kernel
    intro n s hn it hit t ht
    obtain rfl : n = 0 := Nat.lt_one_iff.mp (List.getElem?_eq_some_iff.mp hn).1
    rcases h s (List.mem_of_getElem? hn) it hit with he | he
    · rw [he] at ht
      cases ht
    · obtain rfl : plus = t := by simpa [he] using ht
      exact ⟨0, by decide +kernel⟩

theorem compile_decides_crowded : (∃ table, crowded.compile = .ok table ∧ crowded.DecidedBy table) ∧
    crowded.table.conflicts =
      [⟨0, .symbol plus, .shiftReduce, .shift 0, .reduce 1⟩, ⟨0, .symbol endMark, .reduceReduce, .accept, .reduce 1⟩,
        ⟨0, .symbol endMark, .reduceReduce, .accept, .reduce 2⟩] :=
  ⟨compile_decides crowded isWellMade_crowded, by decide +kernel⟩

end Sums

end CanonicalLR
