import CanonicalLR.Proofs.Automaton.Renaming
import CanonicalLR.Proofs.Grammar.Renaming
import CanonicalLR.Proofs.Table.Conflict
import Mathlib.Data.List.Perm.Basic

/-!
# Tables under new names

The items of a translated state offer on a translated terminal what the items of the state offer on the terminal
(`Translation.Corresponds.mem_offered_iff`), and which actions are offered decides between them. So each cell of a
renamed grammar is the cell of the grammar, while the order of the cells is that in which the terminals were declared.

`isRenamed_canonicalAutomaton` puts it together: new names, another order of the terminals, further terminals and other
payloads neither change the numbers of states nor what is done in them.
-/

namespace CanonicalLR

variable {α β : Type}

/-! ## What is compared -/

/-- What an entry is read as, if it is a symbol. -/
def Translation.datum (r : Translation) : Datum → Datum
  | .symbol s => .symbol (r.symbol s)
  | d => d

/-- What a conflict is read as. -/
def Translation.conflict (r : Translation) (c : Conflict) : Conflict := { c with terminal := r.datum c.terminal }

/-- A key is a non-terminal under its new name if it is one. -/
theorem Translation.nonterminal?_key (r : Translation) (k : Key) :
    (r.key k).symbol?.bind Symbol.nonterminal? = (k.symbol?.bind Symbol.nonterminal?).map r.nonterminal := by
  cases k with
  | symbol s => cases s <;> rfl
  | _ => rfl

/-- An automaton is another one under new names: the same states with the same numbers, and the same transitions in the
same order. -/
structure Automaton.IsRenamed (a : Automaton α) (a' : Automaton β) (r : Translation) : Prop where
  size_eq : a'.size = a.size
  states : ∀ n : Nat, a'.states[n]? = (a.states[n]?).map r.itemSet
  transitions : a'.transitions.entries = a.transitions.entries.map r.entry

/-- A table is another one under new names: the same actions and targets, and in each state the same conflicts, those on
one terminal in the same order. -/
structure ParsingTable.IsRenamed (table : ParsingTable α) (table' : ParsingTable β) (r : Translation) : Prop where
  stateCount_eq : table'.stateCount = table.stateCount
  action : table'.action.entries.Perm (table.action.entries.map r.entry)
  goto : table'.goto.entries = table.goto.entries.map r.entry
  conflicts : ∀ n, (table'.conflictsIn n).Perm ((table.conflictsIn n).map r.conflict)
  conflictsOn : ∀ n, ∀ t ∈ table.grammar.terminals,
    table'.conflictsOn n (r.terminal t) = (table.conflictsOn n t).map r.conflict

variable {g : Grammar α} {g' : Grammar β} {n : Nat} {s : ItemSet} {t : Terminal} {act : Action}

/-! ## Offers -/

/-- A terminal on which something is offered is used. -/
theorem uses_of_mem_offered (hn : (canonicalAutomaton g).states[n]? = some s)
    (h : act ∈ (canonicalAutomaton g).offered n s t) : g.Uses (.terminal t) := by
  have hs := List.mem_of_getElem? hn
  rcases (mem_offered_canonical_iff hn).mp h with ⟨p, hp, hit, -⟩ | ⟨hx, -⟩
  · obtain ⟨γ, rfl⟩ := exists_itemsAfter_eq hs
    obtain ⟨-, q, hq, k, u, he, hu⟩ := exists_uses_of_item_mem hit
    obtain ⟨-, -, rfl⟩ := item_inj hp hq he
    exact hu
  · exact uses_of_mem_nextSymbols hs hx

namespace Translation

variable {r r' : Translation}

section Corresponds

variable (h : r.Corresponds r' g g') (hr : r.KeepsNumbers)
include h hr

theorem Corresponds.getElem?_states (k : Nat) :
    (canonicalAutomaton g').states[k]? = ((canonicalAutomaton g).states[k]?).map r.itemSet := by
  rw [h.states_eq_map hr, List.getElem?_map]

variable (hn : (canonicalAutomaton g).states[n]? = some s)
include hn

/-- A translated state has the number of the state. -/
theorem Corresponds.getElem?_itemSet : (canonicalAutomaton g').states[n]? = some (r.itemSet s) := by
  rw [h.getElem?_states hr, hn, Option.map_some]

/-- What is offered on a terminal is offered in the translated state on the translated terminal. -/
theorem Corresponds.mem_offered (hact : act ∈ (canonicalAutomaton g).offered n s t) :
    act ∈ (canonicalAutomaton g').offered n (r.itemSet s) (r.terminal t) := by
  have hs := List.mem_of_getElem? hn
  refine (mem_offered_canonical_iff (h.getElem?_itemSet hr hn)).mpr ?_
  rcases (mem_offered_canonical_iff hn).mp hact with ⟨p, hp, hit, rfl⟩ | ⟨hx, m, rfl, hm⟩
  · obtain ⟨q, hq, hbody, hnum⟩ := h.exists_same_number hr hp
    refine .inl ⟨q, hq, mem_itemSet_iff.mpr ⟨_, hit, ?_⟩, by rw [hnum]⟩
    rw [item_item (q := q) (by rw [hr, hnum]), hbody, List.length_map]
  · refine .inr ⟨(h.mem_nextSymbols_iff hs).mpr ⟨_, hx, rfl⟩, m, rfl, ?_⟩
    rw [h.getElem?_itemSet hr hm, h.itemSet_goto hs hx]
    rfl

/-- **A translated state offers what the state offers**, on translated terminals only. -/
theorem Corresponds.mem_offered_iff (hr' : r'.KeepsNumbers) {u : Terminal} :
    act ∈ (canonicalAutomaton g').offered n (r.itemSet s) u ↔
      ∃ t, r.terminal t = u ∧ act ∈ (canonicalAutomaton g).offered n s t := by
  have hn' := h.getElem?_itemSet hr hn
  constructor
  · intro hact
    have hback := h.symm.mem_offered hr' hn' hact
    rw [h.itemSet_back (List.mem_of_getElem? hn)] at hback
    exact ⟨r'.terminal u, h.symm.terminal_back (uses_of_mem_offered hn' hact), hback⟩
  · rintro ⟨t, rfl, hact⟩
    exact h.mem_offered hr hn hact

end Corresponds

end Translation

/-! ## Rows -/

/-- Renamed conflicts are those of the renamed cells. -/
theorem Row.map_conflicts {r : Translation} {row : Row} : row.conflicts.map r.conflict =
    Row.conflicts { row with cells := row.cells.map fun c => (r.terminal c.1, c.2) } := by
  simp only [Row.conflicts, List.flatMap_map, List.map_flatMap, List.map_map]
  rfl

namespace Renaming.Renames

variable {f : Renaming} (h : f.Renames g g')
include h

/-- The rows of the renamed grammar are those of the translated states. -/
theorem rows_eq_map : (canonicalAutomaton g').rows = (canonicalAutomaton g).states.zipIdx.map fun e =>
    (canonicalAutomaton g').row e.2 (f.translation.itemSet e.1) := by
  rw [Automaton.rows, h.corresponds.states_eq_map f.keepsNumbers_translation, List.zipIdx_map, List.map_map]
  rfl

/-- What the rows of all states consist of is translated if what each row consists of is, up to the order. -/
theorem perm_flatMap_rows {ι κ : Type} {F : Row → List ι} {F' : Row → List κ} {φ : ι → κ}
    (hrow : ∀ n s, (canonicalAutomaton g).states[n]? = some s →
      (F' ((canonicalAutomaton g').row n (f.translation.itemSet s))).Perm
        ((F ((canonicalAutomaton g).row n s)).map φ)) :
    ((canonicalAutomaton g').rows.flatMap F').Perm (((canonicalAutomaton g).rows.flatMap F).map φ) := by
  rw [h.rows_eq_map, Automaton.rows, List.flatMap_map, List.flatMap_map, List.map_flatMap]
  exact List.Perm.flatMap_left _ fun e he => hrow e.2 e.1 (List.mem_zipIdx_iff_getElem?.mp he)

theorem flatMap_rows_eq {ι κ : Type} {F : Row → List ι} {F' : Row → List κ} {φ : ι → κ}
    (hrow : ∀ n s, (canonicalAutomaton g).states[n]? = some s →
      F' ((canonicalAutomaton g').row n (f.translation.itemSet s)) = (F ((canonicalAutomaton g).row n s)).map φ) :
    (canonicalAutomaton g').rows.flatMap F' = ((canonicalAutomaton g).rows.flatMap F).map φ := by
  rw [h.rows_eq_map, Automaton.rows, List.flatMap_map, List.flatMap_map, List.map_flatMap]
  exact List.flatMap_congr fun e he => hrow e.2 e.1 (List.mem_zipIdx_iff_getElem?.mp he)

section Row

variable (hn : (canonicalAutomaton g).states[n]? = some s)
include hn

/-- On a renamed terminal the same actions are offered. -/
theorem mem_offered_iff (ht : t ∈ g.terminals) :
    act ∈ (canonicalAutomaton g').offered n (f.translation.itemSet s) (f.translation.terminal t) ↔
      act ∈ (canonicalAutomaton g).offered n s t := by
  rw [h.corresponds.mem_offered_iff f.keepsNumbers_translation hn (f.keepsNumbers_undo g)]
  constructor
  · rintro ⟨u, hut, hact⟩
    have hu := (uses_of_mem_offered hn hact).mem_terminals
    rwa [h.terminal_inj hu ht hut] at hact
  · intro hact
    exact ⟨t, rfl, hact⟩

/-- **On a renamed terminal the same choice is made.** -/
theorem resolve_offered (ht : t ∈ g.terminals) :
    resolve ((canonicalAutomaton g').offered n (f.translation.itemSet s) (f.translation.terminal t)) =
      resolve ((canonicalAutomaton g).offered n s t) :=
  resolve_congr cellCandidates_offered fun _ => h.mem_offered_iff hn ht

/-- **The cells of a row are the renamed cells**, in order of the declaration of terminals. -/
theorem perm_cells : ((canonicalAutomaton g').row n (f.translation.itemSet s)).cells.Perm
    (((canonicalAutomaton g).row n s).cells.map fun c => (f.translation.terminal c.1, c.2)) := by
  have hnodup : (((canonicalAutomaton g).row n s).cells.map fun c => (f.translation.terminal c.1, c.2)).Nodup := by
    refine List.Nodup.map_on (fun c hc d hd he => ?_) (nodup_cells.of_map _)
    obtain ⟨hterminal, hchoice⟩ := Prod.mk.inj he
    exact Prod.ext (h.terminal_inj (mem_cells_iff.mp hc).1 (mem_cells_iff.mp hd).1 hterminal) hchoice
  refine (List.perm_ext_iff_of_nodup (nodup_cells.of_map _) hnodup).mpr ?_
  rintro ⟨u, res⟩
  rw [mem_cells_iff, List.mem_map]
  constructor
  · rintro ⟨-, hres⟩
    -- the choice is between something, so the terminal is a renamed one
    obtain ⟨hchosen, -⟩ := resolve_spec cellCandidates_offered hres
    obtain ⟨t, rfl, hact⟩ := (h.corresponds.mem_offered_iff f.keepsNumbers_translation hn (f.keepsNumbers_undo g)).mp
      hchosen
    have ht := (uses_of_mem_offered hn hact).mem_terminals
    refine ⟨(t, res), mem_cells_iff.mpr ⟨ht, ?_⟩, rfl⟩
    rw [← h.resolve_offered hn ht]
    exact hres
  · rintro ⟨⟨t, res'⟩, hc, he⟩
    obtain ⟨rfl, rfl⟩ := Prod.mk.inj he
    obtain ⟨ht, hres⟩ := mem_cells_iff.mp hc
    refine ⟨h.mem_terminals ht, ?_⟩
    rw [h.resolve_offered hn ht]
    exact hres

theorem perm_actions : ((canonicalAutomaton g').row n (f.translation.itemSet s)).actions.Perm
    (((canonicalAutomaton g).row n s).actions.map f.translation.entry) := by
  have hperm := (h.perm_cells hn).map fun c => (((n : Int), Key.terminal c.1), c.2.chosen)
  rw [List.map_map] at hperm
  rw [Row.actions, Row.actions, List.map_map]
  exact hperm

theorem perm_conflicts : ((canonicalAutomaton g').row n (f.translation.itemSet s)).conflicts.Perm
    (((canonicalAutomaton g).row n s).conflicts.map f.translation.conflict) := by
  rw [Row.map_conflicts]
  exact (h.perm_cells hn).flatMap_right _

/-- The conflicts of a row on a renamed terminal are the renamed conflicts, in the same order. -/
theorem filter_conflicts (ht : t ∈ g.terminals) :
    (((canonicalAutomaton g').row n (f.translation.itemSet s)).conflicts.filter
      fun c => c.terminal = .symbol (.terminal (f.translation.terminal t))) =
        (((canonicalAutomaton g).row n s).conflicts.filter fun c => c.terminal = .symbol (.terminal t)).map
          f.translation.conflict := by
  have hcells : (((canonicalAutomaton g').row n (f.translation.itemSet s)).cells.filter
      fun c => c.1 = f.translation.terminal t) = (((canonicalAutomaton g).row n s).cells.filter fun c => c.1 = t).map
        fun c => (f.translation.terminal c.1, c.2) := by
    rw [filter_cells (h.mem_terminals ht), filter_cells ht, h.resolve_offered hn ht]
    cases resolve ((canonicalAutomaton g).offered n s t) <;> rfl
  rw [Row.filter_conflicts, Row.filter_conflicts, Row.map_conflicts, hcells]
  rfl

end Row

/-! ## Targets -/

/-- The transitions that leave a state are the renamed ones, in the same order. -/
theorem entries_outgoing_eq_map : ((canonicalAutomaton g').outgoing n).entries =
    ((canonicalAutomaton g).outgoing n).entries.map fun e => (f.translation.key e.1, e.2) := by
  rw [entries_outgoing sources_nonneg, entries_outgoing sources_nonneg,
    h.corresponds.size_eq f.keepsNumbers_translation,
    h.corresponds.entries_transitions_eq_map f.keepsNumbers_translation, List.filter_map, List.map_map, List.map_map]
  rfl

theorem targets_eq_map : ((canonicalAutomaton g').row n (f.translation.itemSet s)).targets =
    ((canonicalAutomaton g).row n s).targets.map f.translation.entry := by
  have hgotos : ((canonicalAutomaton g').row n (f.translation.itemSet s)).gotos =
      ((canonicalAutomaton g).row n s).gotos.map fun e => (f.translation.nonterminal e.1, e.2) := by
    simp only [Automaton.row, h.entries_outgoing_eq_map, List.filterMap_map, List.map_filterMap]
    refine List.filterMap_congr fun e _ => ?_
    simp only [Function.comp_apply, Translation.nonterminal?_key, Option.map_map]
    rfl
  rw [Row.targets, hgotos, Row.targets, List.map_map, List.map_map]
  rfl

/-! ## The table -/

/-- The conflicts are the renamed conflicts. -/
theorem perm_tableConflicts : (canonicalAutomaton g').table.conflicts.Perm
    ((canonicalAutomaton g).table.conflicts.map f.translation.conflict) :=
  h.perm_flatMap_rows fun _ _ hn => h.perm_conflicts hn

theorem conflictsOn_eq_map (ht : t ∈ g.terminals) (i : Int) :
    (canonicalAutomaton g').table.conflictsOn i (f.translation.terminal t) =
      ((canonicalAutomaton g).table.conflictsOn i t).map f.translation.conflict := by
  have hrows : ((canonicalAutomaton g').rows.flatMap Row.conflicts).filter
      (fun c => c.terminal = .symbol (.terminal (f.translation.terminal t))) =
        (((canonicalAutomaton g).rows.flatMap Row.conflicts).filter
          fun c => c.terminal = .symbol (.terminal t)).map f.translation.conflict := by
    rw [List.filter_flatMap, List.filter_flatMap]
    exact h.flatMap_rows_eq fun _ _ hn => h.filter_conflicts hn ht
  show List.filter _ (List.filter _ _) = (List.filter _ (List.filter _ _)).map _
  rw [List.filter_comm]
  show List.filter _ (List.filter _ ((canonicalAutomaton g').rows.flatMap Row.conflicts)) = _
  rw [hrows, List.filter_map, List.filter_comm]
  rfl

/-- The table is the renamed table. -/
theorem isRenamed_table : (canonicalAutomaton g).table.IsRenamed (canonicalAutomaton g').table f.translation where
  stateCount_eq := congrArg Nat.cast (h.corresponds.size_eq f.keepsNumbers_translation)
  action := by
    rw [entries_action, entries_action]
    exact h.perm_flatMap_rows fun _ _ hn => h.perm_actions hn
  goto := by
    rw [entries_goto, entries_goto]
    exact h.flatMap_rows_eq fun _ _ _ => h.targets_eq_map
  conflicts i := by
    have hperm := h.perm_tableConflicts.filter fun c => c.state = i
    rw [List.filter_map] at hperm
    exact hperm
  conflictsOn i t ht := h.conflictsOn_eq_map ht i

/-- The automaton is the renamed automaton. -/
theorem isRenamed_automaton : (canonicalAutomaton g).IsRenamed (canonicalAutomaton g') f.translation where
  size_eq := h.corresponds.size_eq f.keepsNumbers_translation
  states := h.corresponds.getElem?_states f.keepsNumbers_translation
  transitions := h.corresponds.entries_transitions_eq_map f.keepsNumbers_translation

end Renaming.Renames

/-- **The numbering depends only on the order of the rules.** A grammar that is built from the same rules under other
names, with its terminals in another order, with further terminals and with other payloads has the same automaton and
the same table, apart from the names. -/
theorem isRenamed_canonicalAutomaton {f : Renaming} (h : f.Renames g g') :
    (canonicalAutomaton g).IsRenamed (canonicalAutomaton g') f.translation ∧
      ∃ table table', (canonicalAutomaton g).compile = .ok table ∧ (canonicalAutomaton g').compile = .ok table' ∧
        table.IsRenamed table' f.translation :=
  ⟨h.isRenamed_automaton, _, _, compile_canonicalAutomaton, compile_canonicalAutomaton, h.isRenamed_table⟩

namespace Sums

/-- Sums written with marks. The names of the marks come before that of the end marker, the one for the digit first;
those of the sign and the digit come behind it, the sign first. -/
def marks : Renaming where
  terminal t := if t = plus then ⟨"#", by decide⟩ else ⟨"!", by decide⟩
  nonterminal _ := ⟨"marks", by decide⟩

/-- The sums under the new names, with a terminal that no rule holds and with payloads. -/
def marked : Grammar String :=
  .make ⟨[marks.terminal one, ⟨"?", by decide⟩, marks.terminal plus], by decide, by decide⟩
    ⟨[(marks.translation.rule ⟨sum, [sum, plus, sum]⟩, some "add"), (marks.translation.rule ⟨sum, [one]⟩, none)],
      by decide, by decide⟩
    (marks.nonterminal sum) (by decide) (by decide)

/-- The items of a state stand in another order, but the state has its number and its conflict. -/
theorem isRenamed_marked :
    marks.Renames grammar marked ∧
      (∃ s ∈ (canonicalAutomaton grammar).states,
        (marks.translation.itemSet s).toList ≠ s.toList.map marks.translation.item) ∧
      (canonicalAutomaton marked).table.conflictsOn 4 (marks.terminal plus) =
        [⟨4, .symbol (marks.terminal plus), .shiftReduce, .shift 3, .reduce 1⟩] := by
  have hterminal : ∀ t ∈ grammar.vocabulary.terminals, ∀ u ∈ grammar.vocabulary.terminals,
      marks.terminal t = marks.terminal u → t = u := by decide
  have hnonterminal : ∀ n ∈ grammar.nonterminals, ∀ m ∈ grammar.nonterminals,
      marks.nonterminal n = marks.nonterminal m → n = m := by decide
  have h : marks.Renames grammar marked :=
    ⟨fun t ht u hu => hterminal t ht u hu, fun n hn m hm => hnonterminal n hn m hm, by decide, rfl, rfl⟩
  have hconflicts : (canonicalAutomaton grammar).table.conflictsOn 4 plus =
      [⟨4, .symbol plus, .shiftReduce, .shift 3, .reduce 1⟩] := by decide +kernel
  refine ⟨h, by decide +kernel, ?_⟩
  obtain ⟨-, table, table', hcompile, hcompile', hrenamed⟩ := isRenamed_canonicalAutomaton h
  obtain rfl : (canonicalAutomaton grammar).table = table := by
    rw [compile_canonicalAutomaton] at hcompile
    exact Except.ok.inj hcompile
  obtain rfl : (canonicalAutomaton marked).table = table' := by
    rw [compile_canonicalAutomaton] at hcompile'
    exact Except.ok.inj hcompile'
  have hon := hrenamed.conflictsOn 4 plus (by decide)
  rw [hconflicts] at hon
  exact hon

end Sums

end CanonicalLR
