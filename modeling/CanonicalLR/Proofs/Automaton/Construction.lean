import CanonicalLR.Proofs.Automaton.Canonical
import CanonicalLR.Proofs.Grammar.Loop
import CanonicalLR.Proofs.Search
import Mathlib.Algebra.Ring.Nat

/-!
# The construction ends

All that is computed for a grammar, from its analyses to its automaton, comes from loops without a bound. They all end,
and at the sets and states that the bounded searches find (`construction_ends`).

- The work list of a closure grows by what its items call for. All this is found among the given items and the
  productions with the terminals of the grammar and the lookaheads of the given items (`closureEndsAt_closure`).
- The work list of the automaton grows by the gotos from its states. All this is found among the sets of proper items,
  so there are at most as many states as such sets (`length_states_le`).
-/

namespace CanonicalLR

variable {α : Type} {g : Grammar α}

/-! ## Closures -/

/-- The items that an item calls for, in order of their productions and, for a production, of their lookaheads. -/
def Item.calls (g : Grammar α) (it : Item) : List Item :=
  match it.next g with
  | some (.nonterminal n) =>
    (g.productionsFor n).flatMap fun p => (SortedSet.ofList (it.lookaheads g)).toList.map fun a => ⟨p.number, 0, a⟩
  | _ => []

theorem Item.mem_calls_iff {it it' : Item} : it' ∈ it.calls g ↔ it' ∈ it.expansion g := by
  have hmem (a : Key) : a ∈ (SortedSet.ofList (it.lookaheads g)).toList ↔ a ∈ it.lookaheads g := SortedSet.mem_ofList
  unfold calls expansion
  cases it.next g with
  | none => exact Iff.rfl
  | some x =>
    cases x with
    | terminal t => exact Iff.rfl
    | nonterminal n => simp only [List.mem_flatMap, List.mem_map, hmem]

/-- The work list that starts with the given items and takes in what items call for is over after boundedly many turns,
and has seen the items of the set by then. -/
def ClosureEndsAt (g : Grammar α) (items : List Item) (s : ItemSet) : Prop :=
  ∃ n ≤ closureBound g items, ∃ w, Loop.EndsAfter (WorkList.turn .stack (Item.calls g)) n
    (.start .stack (SortedSet.ofList items).toList) w ∧ s = .ofList w.seen

/-- **The work list of a closure ends at the closure.** -/
theorem closureEndsAt_closure (items : List Item) : ClosureEndsAt g items (closure g items) := by
  have hitems (it : Item) : it ∈ (SortedSet.ofList items).toList ↔ it ∈ items := SortedSet.mem_ofList
  have hcovers := covers_expansion (g := g) items
  have hcalls : Search.Covers (Item.calls g) _ (SortedSet.ofList items).toList (closureBound g items) :=
    ⟨fun it hit => hcovers.starts_mem it ((hitems it).mp hit),
      fun it hit it' hit' => hcovers.next_mem it hit it' (Item.mem_calls_iff.mp hit'), hcovers.length_le⟩
  obtain ⟨n, hn, w, hend, hw⟩ := WorkList.exists_endsAfter (d := .stack) hcalls (nodup_toList (.ofList items))
  refine ⟨n, hn, w, hend, SortedSet.ext_mem fun it => ?_⟩
  rw [SortedSet.mem_ofList, hw, mem_closure_iff]
  exact ⟨.mono (fun it h => (hitems it).mpr h) fun _ _ => Item.mem_calls_iff.mpr,
    .mono (fun it h => (hitems it).mp h) fun _ _ => Item.mem_calls_iff.mp⟩

/-- An item lies within the grammar if its production is counted from the start and its dot is not to the left of its
body. -/
theorem isWithin_of_nonneg {it : Item} (hnn : 0 ≤ it.production) (hlt : it.production < g.size) (hd : 0 ≤ it.dot) :
    it.isWithin g = true := by
  obtain ⟨p, hp, hnum⟩ := Grammar.exists_number_eq hnn hlt
  simp only [Item.isWithin, ← hnum, Grammar.production?_number hp, decide_eq_true_eq]
  omega

/-- Such items have a closure. -/
theorem closure?_eq_some {items : List Item}
    (h : ∀ it ∈ items, 0 ≤ it.production ∧ it.production < g.size ∧ 0 ≤ it.dot) :
    closure? g items = some (closure g items) := by
  refine if_pos (List.all_eq_true.mpr fun it hit => ?_)
  obtain ⟨hnn, hlt, hd⟩ := h it hit
  exact isWithin_of_nonneg hnn hlt hd

/-! ## States -/

/-- The number of triples of a production, a dot in or at an end of its body and a terminal. -/
def itemCount (g : Grammar α) : Nat := (g.productions.map fun p => p.body.length + 1).sum * g.terminals.length

theorem length_properItems : (properItems g).length = itemCount g := by
  rw [properItems, itemCount]
  induction g.productions with
  | nil => simp
  | cons p ps ih =>
    rw [List.flatMap_cons, List.length_append, ih, List.map_cons, List.sum_cons, Nat.add_mul]
    congr 1
    simp [List.length_flatMap]

theorem stateBound_eq : stateBound g = 2 ^ itemCount g := by
  rw [stateBound, length_properItems]
  rfl

/-- There are at most as many states as sets of such triples. -/
theorem length_states_le : (canonicalAutomaton g).states.length ≤ 2 ^ itemCount g := by
  have hsub : (canonicalAutomaton g).states ⊆ properSets g := fun s hs =>
    mem_properSets (isProperSet_of_mem_states s hs)
  exact stateBound_eq (g := g) ▸ (nodup_states.length_le_of_subset hsub).trans length_properSets_le

/-- **The work list of the automaton ends at its states**, in their order. -/
theorem exists_targets_endsAfter : ∃ n ≤ 2 ^ itemCount g, ∃ w,
    Loop.EndsAfter (WorkList.turn .queue (ItemSet.targets g)) n (.start .queue [closure g [initialItem]]) w ∧
      (canonicalAutomaton g).states = w.seen := by
  obtain ⟨n, hn, w, hend, -⟩ := WorkList.exists_endsAfter (d := .queue) (covers_targets (g := g))
    (List.nodup_singleton _)
  exact ⟨n, stateBound_eq (g := g) ▸ hn, w, hend, WorkList.reach_eq_seen hend hn⟩

/-! ## The construction -/

/-- All loops of the construction end: those of the analyses, those of closures, also within each goto of the automaton,
and the one that finds the states. -/
structure ConstructionEnds (g : Grammar α) : Prop where
  nullable : ∃ n, Loop.EndsAfter (Sweep.turn (Grammar.collectHead false) g.productions) n .empty g.nullable
  first : ∃ n, Loop.EndsAfter (Sweep.turn (Grammar.collectFirst g.nullable) g.productions) n
    (Grammar.noFirst g.productions) g.first
  underivable : ∃ n known, Loop.EndsAfter (Sweep.turn (Grammar.collectHead true) g.productions.tail) n .empty known ∧
    g.underivable = g.nonterminals.filter (· ∉ known)
  unreachable : ∃ n w, Loop.EndsAfter (WorkList.turn .stack (mentions g.productions)) n (.start .stack [g.start]) w ∧
    g.unreachable = g.nonterminals.filter (· ∉ w.seen)
  closure : ∀ items : List Item, (∀ it ∈ items, 0 ≤ it.production ∧ it.production < g.size ∧ 0 ≤ it.dot ∧
    ∃ t : Terminal, it.lookahead = .terminal t) → ∃ s, closure? g items = some s ∧ ClosureEndsAt g items s
  gotos : ∀ s ∈ (canonicalAutomaton g).states, ∀ x ∈ s.nextSymbols g,
    ClosureEndsAt g ((s.toList.filter fun it => it.next g = some x).map Item.advance) (goto g s.toList x)
  states : ∃ n w, Loop.EndsAfter (WorkList.turn .queue (ItemSet.targets g)) n
    (.start .queue [CanonicalLR.closure g [initialItem]]) w ∧ (canonicalAutomaton g).states = w.seen
  length_states_le : (canonicalAutomaton g).states.length ≤ 2 ^ itemCount g

/-- **The construction ends for every grammar.** -/
theorem construction_ends (g : Grammar α) : ConstructionEnds g where
  nullable := Grammar.exists_nullable_endsAfter
  first := Grammar.exists_first_endsAfter
  underivable := Grammar.exists_underivable_endsAfter
  unreachable := by
    obtain ⟨n, -, w, h⟩ := Grammar.exists_mentions_endsAfter (g := g) .stack
    exact ⟨n, w, h⟩
  closure items h :=
    ⟨_, closure?_eq_some fun it hit => ⟨(h it hit).1, (h it hit).2.1, (h it hit).2.2.1⟩, closureEndsAt_closure items⟩
  gotos _ _ _ _ := closureEndsAt_closure _
  states := by
    obtain ⟨n, -, w, h⟩ := exists_targets_endsAfter (g := g)
    exact ⟨n, w, h⟩
  length_states_le := CanonicalLR.length_states_le

theorem construction_ends_sums : ∃ s, closure? Sums.grammar [⟨1, 2, endMark⟩] = some s ∧
    ClosureEndsAt Sums.grammar [⟨1, 2, endMark⟩] s := by
  refine (construction_ends Sums.grammar).closure [⟨1, 2, endMark⟩] fun it hit => ?_
  rw [List.mem_singleton.mp hit]
  exact ⟨by decide, by decide, by decide, endMark, rfl⟩

end CanonicalLR
