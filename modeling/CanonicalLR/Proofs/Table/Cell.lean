import CanonicalLR.Proofs.Grammar.Production
import CanonicalLR.Proofs.Table.Resolution

/-!
# The cells of a table

What the table of an automaton holds for a state and a terminal is the choice between the actions that the items of the
state offer on the terminal (`get?_action_iff`), and it has no conflicts just if no cell is offered two actions
(`conflicts_eq_nil_iff`, `hasConflict_iff`). An action that is offered and that no conflict rejects is what the table
does (`get?_action_of_not_rejects`). What it holds for a state and a non-terminal is the transition (`get?_goto_iff`).
All this is so for any automaton, however its items and transitions came about.
-/

namespace CanonicalLR

variable {α : Type}

/-- The actions that the items of a state offer on a terminal, in order of the items. -/
def Automaton.offered (a : Automaton α) (n : Nat) (s : ItemSet) (t : Terminal) : List Action :=
  ((s.toList.filterMap (Item.action? a.grammar (a.outgoing n))).filter fun c => c.1 = .terminal t).map Prod.snd

theorem Grammar.nodup_terminals (g : Grammar α) : g.terminals.Nodup := by
  refine List.nodup_append.mpr ⟨g.vocabulary.nodup, by simp, ?_⟩
  rintro t ht u hu rfl
  exact Grammar.ne_endMark_of_mem_vocabulary ht (List.mem_singleton.mp hu)

variable {a : Automaton α} {n : Nat} {s : ItemSet} {t : Terminal} {act : Action}

/-! ## Offers -/

theorem mem_offered_iff :
    act ∈ a.offered n s t ↔ ∃ it ∈ s, Item.action? a.grammar (a.outgoing n) it = some (.terminal t, act) := by
  simp only [Automaton.offered, List.mem_map, List.mem_filter, List.mem_filterMap, decide_eq_true_eq,
    SortedSet.mem_def]
  constructor
  · rintro ⟨⟨k, act'⟩, ⟨⟨it, hit, ha⟩, rfl⟩, rfl⟩
    exact ⟨it, hit, ha⟩
  · rintro ⟨it, hit, ha⟩
    exact ⟨_, ⟨⟨it, hit, ha⟩, rfl⟩, rfl⟩

/-- An item offers a shift to the target of a transition. -/
theorem get?_outgoing_of_action? {g : Grammar α} {successors : OrderedMap Key Int} {it : Item} {j : Int}
    (h : Item.action? g successors it = some (.terminal t, .shift j)) : successors.get? (.terminal t) = some j := by
  unfold Item.action? at h
  split at h
  · cases h
  · split at h
    · split at h <;> simp at h
    · split at h
      · obtain ⟨i, hi, he⟩ := Option.map_eq_some_iff.mp h
        cases he
        exact hi
      · cases h

theorem reduce_ne_zero_of_action? {g : Grammar α} {successors : OrderedMap Key Int} {it : Item} {k : Key} :
    Item.action? g successors it ≠ some (k, .reduce 0) := by
  intro h
  unfold Item.action? at h
  split at h
  · cases h
  · split at h
    · split at h
      · cases h
      · rename_i hp
        simp only [Option.some.injEq, Prod.mk.injEq, Action.reduce.injEq] at h
        omega
    · split at h
      · obtain ⟨i, _, he⟩ := Option.map_eq_some_iff.mp h
        cases he
      · cases h

theorem cellCandidates_offered : CellCandidates (a.offered n s t) where
  shift_unique i j hi hj := by
    obtain ⟨_, _, hi⟩ := mem_offered_iff.mp hi
    obtain ⟨_, _, hj⟩ := mem_offered_iff.mp hj
    have h := get?_outgoing_of_action? hi
    rw [get?_outgoing_of_action? hj] at h
    exact (Option.some.inj h).symm
  no_reduce_zero h := by
    obtain ⟨_, _, h⟩ := mem_offered_iff.mp h
    exact reduce_ne_zero_of_action? h

/-! ## Rows -/

theorem mem_rows_iff {r : Row} : r ∈ a.rows ↔ ∃ n s, a.states[n]? = some s ∧ r = a.row n s := by
  simp only [Automaton.rows, List.mem_map]
  constructor
  · rintro ⟨⟨s, n⟩, he, rfl⟩
    exact ⟨n, s, List.mem_zipIdx_iff_getElem?.mp he, rfl⟩
  · rintro ⟨n, s, hn, rfl⟩
    exact ⟨(s, n), List.mem_zipIdx_iff_getElem?.mpr hn, rfl⟩

/-- The rows stand in order of their states. -/
theorem pairwise_rows : a.rows.Pairwise fun r r' => r.state < r'.state := by
  have h : (a.states.zipIdx.map Prod.snd).Pairwise (· < ·) := by
    rw [List.zipIdx_map_snd]
    exact List.pairwise_lt_range'
  exact List.pairwise_map.mpr (List.pairwise_map.mp h)

/-- Entries whose keys name the states of their rows have different keys if those of each row do. -/
theorem nodup_keys_rows {ν : Type} {f : Row → List ((Int × Key) × ν)} (hstate : ∀ r, ∀ e ∈ f r, e.1.1 = r.state)
    (hf : ∀ r ∈ a.rows, ((f r).map Prod.fst).Nodup) : ((a.rows.flatMap f).map Prod.fst).Nodup := by
  rw [List.map_flatMap, List.nodup_flatMap]
  refine ⟨hf, pairwise_rows.imp fun {r r'} hlt => ?_⟩
  intro k hk hk'
  obtain ⟨e, he, rfl⟩ := List.mem_map.mp hk
  obtain ⟨e', he', hee⟩ := List.mem_map.mp hk'
  have h₁ := hstate r e he
  have h₂ := hstate r' e' he'
  rw [hee] at h₂
  omega

/-! ## Actions -/

theorem mem_cells_iff {c : Terminal × Resolution} :
    c ∈ (a.row n s).cells ↔ c.1 ∈ a.grammar.terminals ∧ resolve (a.offered n s c.1) = some c.2 := by
  simp only [Automaton.row, resolveOn, List.mem_filterMap, Option.map_eq_some_iff, Automaton.offered]
  constructor
  · rintro ⟨t, ht, r, hr, rfl⟩
    exact ⟨ht, hr⟩
  · rintro ⟨ht, hr⟩
    exact ⟨c.1, ht, c.2, hr, rfl⟩

/-- Of the cells, one is for a terminal of the grammar if something is offered on it. -/
theorem filter_cells (ht : t ∈ a.grammar.terminals) :
    (a.row n s).cells.filter (fun c => c.1 = t) = ((resolve (a.offered n s t)).map fun r => (t, r)).toList := by
  have hcells : ∀ ts : List Terminal, ts.Nodup → ((ts.filterMap (resolveOn (s.toList.filterMap
      (Item.action? a.grammar (a.outgoing n))))).filter fun c => c.1 = t) =
        if t ∈ ts then ((resolve (a.offered n s t)).map fun r => (t, r)).toList else [] := by
    intro ts hts
    induction ts with
    | nil => rfl
    | cons u us ih =>
      obtain ⟨hu, hus⟩ := List.nodup_cons.mp hts
      have hon : resolveOn (s.toList.filterMap (Item.action? a.grammar (a.outgoing n))) u =
          (resolve (a.offered n s u)).map fun r => (u, r) := rfl
      rw [List.filterMap_cons, hon]
      cases hr : resolve (a.offered n s u) with
      | none =>
        simp only [Option.map_none, ih hus, List.mem_cons]
        by_cases htu : t = u
        · subst htu
          simp [hu, hr]
        · simp [htu]
      | some r =>
        simp only [Option.map_some, List.filter_cons, ih hus, List.mem_cons]
        by_cases htu : t = u
        · subst htu
          simp [hu, hr]
        · simp [htu, Ne.symm htu]
  exact (hcells _ a.grammar.nodup_terminals).trans (if_pos ht)

/-- The cells stand in order of the declaration of their terminals. -/
theorem map_fst_cells_sublist : ((a.row n s).cells.map Prod.fst).Sublist a.grammar.terminals := by
  simp only [Automaton.row]
  generalize hcs : s.toList.filterMap (Item.action? a.grammar (a.outgoing n)) = cs
  induction a.grammar.terminals with
  | nil => exact .slnil
  | cons t ts ih =>
    rw [List.filterMap_cons]
    cases hr : resolveOn cs t with
    | none => exact ih.cons t
    | some c =>
      obtain ⟨r, _, rfl⟩ := Option.map_eq_some_iff.mp hr
      exact ih.cons_cons t

theorem nodup_cells : ((a.row n s).cells.map Prod.fst).Nodup :=
  map_fst_cells_sublist.nodup a.grammar.nodup_terminals

theorem nodup_keys_actions : ((a.rows.flatMap Row.actions).map Prod.fst).Nodup := by
  refine nodup_keys_rows (fun r e he => ?_) fun r hr => ?_
  · obtain ⟨c, _, rfl⟩ := List.mem_map.mp he
    rfl
  · obtain ⟨n, s, _, rfl⟩ := mem_rows_iff.mp hr
    have hk : ((a.row n s).actions.map Prod.fst) =
        ((a.row n s).cells.map Prod.fst).map fun t => ((((a.row n s).state : Nat) : Int), Key.terminal t) := by
      simp [Row.actions, Function.comp_def]
    rw [hk]
    exact nodup_cells.map fun t u htu => by simpa using htu

/-- The entries for terminals are those of the rows, in their order. -/
theorem entries_action : a.table.action.entries = a.rows.flatMap Row.actions :=
  OrderedMap.entries_ofList nodup_keys_actions

/-- **The entry for a state and a terminal is the choice between the actions that are offered.** -/
theorem get?_action_iff :
    a.table.action.get? ((n : Int), .terminal t) = some act ↔ ∃ s, a.states[n]? = some s ∧
      t ∈ a.grammar.terminals ∧ ∃ r, resolve (a.offered n s t) = some r ∧ r.chosen = act := by
  rw [Automaton.table, OrderedMap.get?_ofList_eq_some_iff nodup_keys_actions, List.mem_flatMap]
  constructor
  · rintro ⟨r, hr, he⟩
    obtain ⟨m, s, hm, rfl⟩ := mem_rows_iff.mp hr
    obtain ⟨⟨u, res⟩, hc, he⟩ := List.mem_map.mp he
    simp only [Prod.mk.injEq, Key.symbol.injEq, Symbol.terminal.injEq, Automaton.row, Int.natCast_inj] at he
    obtain ⟨⟨rfl, rfl⟩, rfl⟩ := he
    obtain ⟨ht, hres⟩ := mem_cells_iff.mp hc
    exact ⟨s, hm, ht, res, hres, rfl⟩
  · rintro ⟨s, hn, ht, r, hr, rfl⟩
    refine ⟨a.row n s, mem_rows_iff.mpr ⟨n, s, hn, rfl⟩, List.mem_map.mpr ⟨(t, r), ?_, rfl⟩⟩
    exact mem_cells_iff.mpr ⟨ht, hr⟩

/-- An entry is an action that is offered. -/
theorem mem_offered_of_get?_action (h : a.table.action.get? ((n : Int), .terminal t) = some act)
    (hn : a.states[n]? = some s) : act ∈ a.offered n s t := by
  obtain ⟨s', hn', _, r, hr, rfl⟩ := get?_action_iff.mp h
  obtain rfl : s = s' := Option.some.inj (hn.symm.trans hn')
  exact (resolve_spec cellCandidates_offered hr).1

/-- Where an action is offered there is an entry. -/
theorem exists_get?_action (hn : a.states[n]? = some s) (ht : t ∈ a.grammar.terminals) (h : act ∈ a.offered n s t) :
    ∃ act', a.table.action.get? ((n : Int), .terminal t) = some act' := by
  cases hr : resolve (a.offered n s t) with
  | none =>
    rw [(resolve_eq_none_iff cellCandidates_offered.no_reduce_zero).mp hr] at h
    exact absurd h List.not_mem_nil
  | some r => exact ⟨r.chosen, get?_action_iff.mpr ⟨s, hn, ht, r, hr, rfl⟩⟩

/-- A table expects the terminals with an entry. -/
theorem ParsingTable.mem_expected_iff {table : ParsingTable α} {i : Int} :
    t ∈ table.expected i ↔ t ∈ table.grammar.terminals ∧ ∃ act, table.action.get? (i, .terminal t) = some act := by
  simp [expected, actionsFor]

/-- What is expected stands in order of the declaration of terminals. -/
theorem ParsingTable.expected_eq_filter {table : ParsingTable α} {i : Int} :
    table.expected i = table.grammar.terminals.filter fun t => (table.action.get? (i, .terminal t)).isSome := by
  rw [expected, actionsFor]
  induction table.grammar.terminals with
  | nil => rfl
  | cons t ts ih =>
    rw [List.filterMap_cons]
    cases hact : table.action.get? (i, .terminal t) with
    | none => simp [hact, ih]
    | some act => simp [hact, ih]

/-- The table of an automaton expects the terminals on which the items of a state offer something. -/
theorem mem_expected_table_iff (hn : a.states[n]? = some s) :
    t ∈ a.table.expected n ↔ t ∈ a.grammar.terminals ∧ ∃ act, act ∈ a.offered n s t := by
  rw [ParsingTable.mem_expected_iff]
  refine and_congr_right fun ht => ⟨?_, ?_⟩
  · rintro ⟨act, hact⟩
    exact ⟨act, mem_offered_of_get?_action hact hn⟩
  · rintro ⟨act, hact⟩
    exact exists_get?_action hn ht hact

/-! ## Conflicts -/

/-- The conflicts are one for each action that a choice rejects. -/
theorem mem_conflicts_iff {c : Conflict} : c ∈ a.table.conflicts ↔ ∃ n s t r, a.states[n]? = some s ∧
    t ∈ a.grammar.terminals ∧ resolve (a.offered n s t) = some r ∧
    ∃ act ∈ r.rejected, c = ⟨n, .symbol t, r.kind, r.chosen, act⟩ := by
  constructor
  · intro hc
    obtain ⟨row, hrow, hc⟩ := List.mem_flatMap.mp hc
    obtain ⟨n, s, hn, rfl⟩ := mem_rows_iff.mp hrow
    obtain ⟨⟨t, r⟩, hcell, hc⟩ := List.mem_flatMap.mp hc
    obtain ⟨act, hact, rfl⟩ := List.mem_map.mp hc
    obtain ⟨ht, hr⟩ := mem_cells_iff.mp hcell
    exact ⟨n, s, t, r, hn, ht, hr, act, hact, rfl⟩
  · rintro ⟨n, s, t, r, hn, ht, hr, act, hact, rfl⟩
    have hc : ⟨n, .symbol t, r.kind, r.chosen, act⟩ ∈ (a.row n s).conflicts :=
      List.mem_flatMap.mpr ⟨(t, r), mem_cells_iff.mpr ⟨ht, hr⟩, List.mem_map.mpr ⟨act, hact, rfl⟩⟩
    exact List.mem_flatMap.mpr ⟨a.row n s, mem_rows_iff.mpr ⟨n, s, hn, rfl⟩, hc⟩

/-- **There are no conflicts just if no cell is offered two actions.** -/
theorem conflicts_eq_nil_iff :
    a.table.conflicts = [] ↔ ∀ n s, a.states[n]? = some s → ∀ t ∈ a.grammar.terminals,
      ∀ act ∈ a.offered n s t, ∀ act' ∈ a.offered n s t, act = act' := by
  rw [List.eq_nil_iff_forall_not_mem]
  constructor
  · intro h n s hn t ht
    cases hr : resolve (a.offered n s t) with
    | none =>
      rw [(resolve_eq_none_iff cellCandidates_offered.no_reduce_zero).mp hr]
      exact fun _ hact => absurd hact List.not_mem_nil
    | some r =>
      rw [← rejected_eq_nil_iff cellCandidates_offered hr, List.eq_nil_iff_forall_not_mem]
      exact fun act hact => h _ (mem_conflicts_iff.mpr ⟨n, s, t, r, hn, ht, hr, act, hact, rfl⟩)
  · intro h c hc
    obtain ⟨n, s, t, r, hn, ht, hr, act, hact, -⟩ := mem_conflicts_iff.mp hc
    rw [(rejected_eq_nil_iff cellCandidates_offered hr).mpr (h n s hn t ht)] at hact
    exact List.not_mem_nil hact

/-- A table has a conflict for a state and a terminal. -/
def ParsingTable.HasConflict (table : ParsingTable α) (n : Int) (t : Terminal) : Prop :=
  ∃ c ∈ table.conflicts, c.state = n ∧ c.terminal = .symbol t

/-- **A cell has a conflict just if it is offered two actions.** -/
theorem hasConflict_iff : a.table.HasConflict n t ↔ ∃ s, a.states[n]? = some s ∧ t ∈ a.grammar.terminals ∧
    ∃ act ∈ a.offered n s t, ∃ act' ∈ a.offered n s t, act ≠ act' := by
  constructor
  · rintro ⟨c, hc, hstate, hterminal⟩
    obtain ⟨m, s, u, r, hm, hu, hr, act, hact, rfl⟩ := mem_conflicts_iff.mp hc
    obtain rfl : m = n := Int.natCast_inj.mp hstate
    obtain rfl : u = t := by simpa using hterminal
    obtain ⟨hchosen, hrejected⟩ := resolve_spec cellCandidates_offered hr
    obtain ⟨hact, hne⟩ := (hrejected act).mp hact
    exact ⟨s, hm, hu, act, hact, _, hchosen, hne⟩
  · rintro ⟨s, hn, ht, act, hact, act', hact', hne⟩
    cases hr : resolve (a.offered n s t) with
    | none =>
      rw [(resolve_eq_none_iff cellCandidates_offered.no_reduce_zero).mp hr] at hact
      exact absurd hact List.not_mem_nil
    | some r =>
      have hrejected : r.rejected ≠ [] := fun h =>
        hne ((rejected_eq_nil_iff cellCandidates_offered hr).mp h act hact act' hact')
      obtain ⟨loser, hloser⟩ := List.exists_mem_of_ne_nil _ hrejected
      exact ⟨_, mem_conflicts_iff.mpr ⟨n, s, t, r, hn, ht, hr, loser, hloser, rfl⟩, rfl, rfl⟩

/-- A conflict on a terminal rejects an action. -/
def ParsingTable.Rejects (table : ParsingTable α) (t : Terminal) (act : Action) : Prop :=
  ∃ c ∈ table.conflicts, c.terminal = .symbol t ∧ c.rejected = act

theorem ParsingTable.not_rejects_of_conflicts_eq_nil {table : ParsingTable α} (hc : table.conflicts = []) :
    ¬table.Rejects t act := by
  rintro ⟨c, hmem, -⟩
  rw [hc] at hmem
  cases hmem

/-- **An action that is offered and that no conflict rejects is what the table does.** -/
theorem get?_action_of_not_rejects (hn : a.states[n]? = some s) (ht : t ∈ a.grammar.terminals)
    (h : act ∈ a.offered n s t) (hr : ¬a.table.Rejects t act) :
    a.table.action.get? ((n : Int), .terminal t) = some act := by
  obtain ⟨act', hget⟩ := exists_get?_action hn ht h
  obtain ⟨s', hs', -, r, hres, rfl⟩ := get?_action_iff.mp hget
  obtain rfl : s = s' := Option.some.inj (hn.symm.trans hs')
  by_contra hne
  have hact : act ∈ r.rejected := by
    refine ((resolve_spec cellCandidates_offered hres).2 act).mpr ⟨h, fun he => hne ?_⟩
    rw [hget, he]
  exact hr ⟨_, mem_conflicts_iff.mpr ⟨n, s, t, r, hn, ht, hres, act, hact, rfl⟩, rfl, rfl⟩

/-- A shift that is offered is what the table does. -/
theorem get?_action_of_shift (hn : a.states[n]? = some s) (ht : t ∈ a.grammar.terminals) {j : Int}
    (h : .shift j ∈ a.offered n s t) : a.table.action.get? ((n : Int), .terminal t) = some (.shift j) := by
  obtain ⟨act', hget⟩ := exists_get?_action hn ht h
  obtain ⟨s', hs', -, r, hres, rfl⟩ := get?_action_iff.mp hget
  obtain rfl : s = s' := Option.some.inj (hn.symm.trans hs')
  rw [hget, (resolve_isChoiceOf cellCandidates_offered hres).shift_wins j h]

/-! ## Targets -/

theorem mem_gotos_iff {x : NonTerminal} {j : Int} :
    (x, j) ∈ (a.row n s).gotos ↔ (a.outgoing n).get? (.nonterminal x) = some j := by
  simp only [Automaton.row, List.mem_filterMap, Option.map_eq_some_iff, OrderedMap.get?_eq_some_iff]
  constructor
  · rintro ⟨⟨k, i⟩, he, y, hy, hxj⟩
    cases hxj
    have hk : k = .nonterminal x := by
      cases k with
      | symbol z =>
        cases z with
        | terminal t => cases hy
        | nonterminal z => cases hy; rfl
      | _ => cases hy
    exact hk ▸ he
  · intro he
    exact ⟨_, he, x, rfl, rfl⟩

theorem nodup_gotos : ((a.row n s).gotos.map Prod.fst).Nodup := by
  have hd : ((a.row n s).gotos.map fun e => Key.nonterminal e.1).Sublist (a.outgoing n).keys := by
    simp only [Automaton.row, OrderedMap.keys]
    induction (a.outgoing n).entries with
    | nil => exact .slnil
    | cons e es ih =>
      rw [List.filterMap_cons]
      cases hx : e.1.symbol?.bind Symbol.nonterminal? with
      | none => exact ih.cons e.1
      | some x =>
        have he : e.1 = .nonterminal x := by
          obtain ⟨k, i⟩ := e
          cases k with
          | symbol z =>
            cases z with
            | terminal t => cases hx
            | nonterminal z => cases hx; rfl
          | _ => cases hx
        rw [List.map_cons, he]
        exact ih.cons_cons _
  have hn := hd.nodup (a.outgoing n).distinct
  refine (List.Nodup.of_map (Key.nonterminal ·) ?_)
  rwa [List.map_map]

theorem nodup_keys_targets : ((a.rows.flatMap Row.targets).map Prod.fst).Nodup := by
  refine nodup_keys_rows (fun r e he => ?_) fun r hr => ?_
  · obtain ⟨c, _, rfl⟩ := List.mem_map.mp he
    rfl
  · obtain ⟨n, s, _, rfl⟩ := mem_rows_iff.mp hr
    have hk : ((a.row n s).targets.map Prod.fst) =
        ((a.row n s).gotos.map Prod.fst).map fun x => ((((a.row n s).state : Nat) : Int), Key.nonterminal x) := by
      simp [Row.targets, Function.comp_def]
    rw [hk]
    exact nodup_gotos.map fun x y hxy => by simpa using hxy

/-- The entries for non-terminals are those of the rows, in their order. -/
theorem entries_goto : a.table.goto.entries = a.rows.flatMap Row.targets := OrderedMap.entries_ofList nodup_keys_targets

/-- **The target for a state and a non-terminal is that of the transition.** -/
theorem get?_goto_iff {x : NonTerminal} {j : Int} :
    a.table.goto.get? ((n : Int), .nonterminal x) = some j ↔
      n < a.size ∧ (a.outgoing n).get? (.nonterminal x) = some j := by
  rw [Automaton.table, OrderedMap.get?_ofList_eq_some_iff nodup_keys_targets, List.mem_flatMap]
  constructor
  · rintro ⟨r, hr, he⟩
    obtain ⟨m, s, hm, rfl⟩ := mem_rows_iff.mp hr
    obtain ⟨⟨y, i⟩, hc, he⟩ := List.mem_map.mp he
    simp only [Prod.mk.injEq, Key.symbol.injEq, Symbol.nonterminal.injEq, Automaton.row, Int.natCast_inj] at he
    obtain ⟨⟨rfl, rfl⟩, rfl⟩ := he
    exact ⟨(List.getElem?_eq_some_iff.mp hm).1, mem_gotos_iff.mp hc⟩
  · rintro ⟨hn, h⟩
    have hs : a.states[n]? = some a.states[n] := List.getElem?_eq_getElem hn
    exact ⟨a.row n a.states[n], mem_rows_iff.mpr ⟨n, _, hs, rfl⟩, List.mem_map.mpr ⟨(x, j), mem_gotos_iff.mpr h, rfl⟩⟩

theorem place_of_nonneg {k : Int} (hk : 0 ≤ k) {l m : Nat} : Position.place l k = some m ↔ m < l ∧ k = m := by
  rw [Position.place_eq_some_iff]
  omega

/-- The transitions that leave a state stand in their order, where no source counts from the end. -/
theorem entries_outgoing (hs : ∀ k ∈ a.transitions.keys, 0 ≤ k.1) : (a.outgoing n).entries =
    (a.transitions.entries.filter fun e => Position.place a.size e.1.1 = some n).map fun e => (e.1.2, e.2) := by
  have hd : ((a.transitions.entries.filter fun e => Position.place a.size e.1.1 = some n).map Prod.fst).Nodup :=
    (List.filter_sublist.map Prod.fst).nodup a.transitions.distinct
  refine OrderedMap.entries_ofList ?_
  rw [List.map_map]
  refine List.Nodup.of_map (fun l => ((n : Int), l)) ?_
  rw [List.map_map]
  convert hd using 1
  refine List.map_congr_left fun e he => ?_
  obtain ⟨he, hp⟩ := List.mem_filter.mp he
  obtain ⟨-, hi⟩ := (place_of_nonneg (hs _ (List.mem_map_of_mem he))).mp (of_decide_eq_true hp)
  exact Prod.ext hi.symm rfl

/-- The transitions that leave a state, where no source counts from the end. -/
theorem get?_outgoing (hs : ∀ k ∈ a.transitions.keys, 0 ≤ k.1) {k : Key} {j : Int} :
    (a.outgoing n).get? k = some j ↔ n < a.size ∧ a.transitions.get? ((n : Int), k) = some j := by
  rw [OrderedMap.get?_eq_some_iff, entries_outgoing hs, OrderedMap.get?_eq_some_iff]
  simp only [List.mem_map, List.mem_filter, decide_eq_true_eq]
  constructor
  · rintro ⟨⟨⟨i, l⟩, m⟩, ⟨he, hp⟩, hkj⟩
    obtain ⟨hn, rfl⟩ := (place_of_nonneg (hs _ (List.mem_map_of_mem he))).mp hp
    obtain ⟨rfl, rfl⟩ := Prod.mk.inj hkj
    exact ⟨hn, he⟩
  · rintro ⟨hn, he⟩
    exact ⟨_, ⟨he, (place_of_nonneg (Int.natCast_nonneg n)).mpr ⟨hn, rfl⟩⟩, rfl⟩

end CanonicalLR
