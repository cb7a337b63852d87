import CanonicalLR.Proofs.Automaton.Translation
import CanonicalLR.Proofs.Search
import Mathlib.Data.List.Sort

/-!
# Automata under new names

Items stand in a set by production, dot and lookahead, so new names change the order of a set, but only among items with
the same production and dot. The symbols after dots stand in order of the productions and dots alone
(`ItemSet.nextSymbols_eq`), so their order survives (`nextSymbols_itemSet`): the search for states takes the same course
under all names. Hence the states of the renamed grammar are the translated states, in the same order
(`states_eq_map`), and its transitions are the translated transitions (`entries_transitions_eq_map`).
-/

namespace CanonicalLR

variable {α β : Type} {g : Grammar α} {g' : Grammar β} {r r' : Translation} {s : ItemSet}

/-! ## The order of productions and dots -/

/-- The symbol after a dot in a production. -/
def Grammar.symbolAt (g : Grammar α) (core : Int × Int) : Option Symbol :=
  Position.get? (((g.production? core.1).map fun p => p.body).getD []) core.2

theorem Grammar.symbolAt_core {p : Production α} (hp : p ∈ g.productions) {k : Nat} {t : Terminal} :
    g.symbolAt (p.item k t).core = p.body[k]? :=
  next_item (t := t) hp

namespace ItemSet

/-- **The symbols after dots stand in order of productions and dots**, whatever the lookaheads. -/
theorem nextSymbols_eq : s.nextSymbols g = distinct (s.cores.filterMap g.symbolAt) := by
  rw [cores, distinct_filterMap, List.filterMap_map]
  rfl

theorem mem_cores_iff {c : Int × Int} : c ∈ s.cores ↔ ∃ it ∈ s, it.core = c := by
  rw [cores, mem_distinct, List.mem_map]
  rfl

/-- Productions and dots stand in order: by production, then by dot. -/
theorem pairwise_cores : s.cores.Pairwise fun c d => c.1 < d.1 ∨ c.1 = d.1 ∧ c.2 ≤ d.2 := by
  refine List.Pairwise.sublist fresh_sublist (List.pairwise_map.mpr (s.increasing.imp fun {a b} hab => ?_))
  rw [Item.compare_eq, Ordering.then_eq_lt] at hab
  rcases hab with hp | ⟨hp, hrest⟩
  · exact .inl (Int.compare_eq_lt.mp hp)
  · refine .inr ⟨Std.LawfulEqOrd.eq_of_compare hp, ?_⟩
    rcases Ordering.then_eq_lt.mp hrest with hd | ⟨hd, -⟩
    · exact Int.le_of_lt (Int.compare_eq_lt.mp hd)
    · exact Int.le_of_eq (Std.LawfulEqOrd.eq_of_compare hd)

/-- Sets with items of the same productions and dots have these in the same order. -/
theorem cores_eq {t : ItemSet} (h : ∀ c, c ∈ s.cores ↔ c ∈ t.cores) : s.cores = t.cores := by
  refine List.Perm.eq_of_pairwise (fun c d _ _ hcd hdc => ?_) pairwise_cores pairwise_cores
    ((List.perm_ext_iff_of_nodup nodup_distinct nodup_distinct).mpr h)
  exact Prod.ext (by omega) (by omega)

end ItemSet

/-- What stands after a dot of a state is used. -/
theorem uses_of_mem_nextSymbols (hs : s ∈ (canonicalAutomaton g).states) {x : Symbol} (hx : x ∈ s.nextSymbols g) :
    g.Uses x := by
  obtain ⟨p, hp, hb⟩ := exists_mem_body_of_mem_nextSymbols hs hx
  exact Grammar.uses_of_mem_body hp hb

/-! ## Translations that keep the numbers -/

namespace Translation

/-- What an entry of a map for states and keys is read as. -/
def entry {ν : Type} (r : Translation) (e : (Int × Key) × ν) : (Int × Key) × ν := ((e.1.1, r.key e.1.2), e.2)

theorem KeepsNumbers.core_item (hr : r.KeepsNumbers) {it : Item} : (r.item it).core = it.core :=
  Prod.ext (hr it.production) rfl

/-- The productions and dots of a translated set are those of the set. -/
theorem KeepsNumbers.cores_itemSet (hr : r.KeepsNumbers) : (r.itemSet s).cores = s.cores := by
  refine ItemSet.cores_eq fun c => ?_
  rw [ItemSet.mem_cores_iff, ItemSet.mem_cores_iff]
  constructor
  · rintro ⟨it', hit', rfl⟩
    obtain ⟨it, hit, rfl⟩ := mem_itemSet_iff.mp hit'
    exact ⟨it, hit, hr.core_item.symm⟩
  · rintro ⟨it, hit, rfl⟩
    exact ⟨r.item it, mem_itemSet_iff.mpr ⟨it, hit, rfl⟩, hr.core_item⟩

section Corresponds

variable (h : r.Corresponds r' g g') (hr : r.KeepsNumbers)
include h hr

/-- A production has the number of its translation. -/
theorem Corresponds.exists_same_number {p : Production α} (hp : p ∈ g.productions) :
    ∃ q ∈ g'.productions, q.body = p.body.map r.symbol ∧ q.number = p.number := by
  obtain ⟨q, hq, -, hbody, hn⟩ := h.maps.exists_head_body hp
  rw [hr] at hn
  exact ⟨q, hq, hbody, Int.natCast_inj.mp hn⟩

/-- The symbol after a dot is translated. -/
theorem Corresponds.symbolAt_core {p : Production α} (hp : p ∈ g.productions) {k : Nat} {t : Terminal} :
    g'.symbolAt (p.item k t).core = (g.symbolAt (p.item k t).core).map r.symbol := by
  obtain ⟨q, hq, hbody, hn⟩ := h.exists_same_number hr hp
  have hcore : (p.item k t).core = (q.item k t).core := by
    simp only [Item.core, Production.item, hn]
  rw [Grammar.symbolAt_core hp, hcore, Grammar.symbolAt_core hq, hbody, List.getElem?_map]

variable (hs : s ∈ (canonicalAutomaton g).states)
include hs

/-- **The symbols after the dots of a translated state are the translated symbols, in the same order.** -/
theorem Corresponds.nextSymbols_itemSet : (r.itemSet s).nextSymbols g' = (s.nextSymbols g).map r.symbol := by
  have hsymbols : s.cores.filterMap g'.symbolAt = (s.cores.filterMap g.symbolAt).map r.symbol := by
    rw [List.map_filterMap]
    refine List.filterMap_congr fun c hc => ?_
    obtain ⟨it, hit, rfl⟩ := ItemSet.mem_cores_iff.mp hc
    obtain ⟨p, hp, k, -, t, -, rfl⟩ := mem_properItems_iff.mp (isProperSet_of_mem_states s hs it hit)
    exact h.symbolAt_core hr hp
  have huses : ∀ x ∈ s.cores.filterMap g.symbolAt, g.Uses x := by
    intro x hx
    refine uses_of_mem_nextSymbols hs ?_
    rw [ItemSet.nextSymbols_eq, mem_distinct]
    exact hx
  rw [ItemSet.nextSymbols_eq, ItemSet.nextSymbols_eq, hr.cores_itemSet, hsymbols]
  exact distinct_map fun x hx y hy => h.symbol_inj (huses x hx) (huses y hy)

/-- Gotos lead to the translated sets, in the same order. -/
theorem Corresponds.targets_itemSet : (r.itemSet s).targets g' = (s.targets g).map r.itemSet := by
  rw [ItemSet.targets, ItemSet.targets, h.nextSymbols_itemSet hr hs, List.map_map, List.map_map]
  exact List.map_congr_left fun x hx => (h.itemSet_goto hs hx).symm

end Corresponds

/-! ## States -/

section Corresponds

variable (h : r.Corresponds r' g g') (hr : r.KeepsNumbers)
include h hr

/-- **The search for states takes the same course.** -/
theorem Corresponds.canonicalGraph_eq_map :
    canonicalGraph g' = (canonicalGraph g).map fun e => (r.itemSet e.1, e.2.map r.itemSet) := by
  have hstart : closure g' [initialItem] = r.itemSet (closure g [initialItem]) :=
    (h.itemSet_itemsAfter (γ := []) fun _ hx => absurd hx List.not_mem_nil).symm
  have hcovers := covers_targets (g := g')
  rw [hstart] at hcovers
  rw [canonicalGraph, hstart]
  exact Search.graph_map covers_targets hcovers (fun s hs t ht => h.itemSet_inj hs ht)
    fun s hs => h.targets_itemSet hr hs

/-- **The states are the translated states, in the same order.** -/
theorem Corresponds.states_eq_map : (canonicalAutomaton g').states = (canonicalAutomaton g).states.map r.itemSet := by
  show (canonicalGraph g').map Prod.fst = ((canonicalGraph g).map Prod.fst).map r.itemSet
  rw [h.canonicalGraph_eq_map hr, List.map_map, List.map_map]
  rfl

theorem Corresponds.size_eq : (canonicalAutomaton g').size = (canonicalAutomaton g).size := by
  rw [Automaton.size, h.states_eq_map hr, List.length_map]
  rfl

/-! ## Transitions -/

theorem Corresponds.transitionsOf_eq_map :
    transitionsOf g' (canonicalGraph g') = (transitionsOf g (canonicalGraph g)).map r.entry := by
  have hstates : (canonicalGraph g').map Prod.fst = ((canonicalGraph g).map Prod.fst).map r.itemSet :=
    h.states_eq_map hr
  rw [transitionsOf, hstates, transitionsOf, h.canonicalGraph_eq_map hr, List.zipIdx_map, List.flatMap_map,
    List.map_flatMap]
  refine List.flatMap_congr ?_
  rintro ⟨⟨s, ts⟩, n⟩ he
  have hgraph := List.fst_mem_of_mem_zipIdx he
  have hs : s ∈ (canonicalAutomaton g).states := List.mem_map_of_mem hgraph
  have hts : ts = s.targets g := targets_of_mem_canonicalGraph hgraph
  simp only [Prod.map_apply, id_eq, h.nextSymbols_itemSet hr hs, List.zip_map]
  refine List.map_map.trans ((List.map_congr_left fun xt hxt => ?_).trans List.map_map.symm)
  -- the target is a state, and translated states are as different as the states
  have ht : xt.2 ∈ (canonicalAutomaton g).states := by
    obtain ⟨x, hx, he⟩ := List.mem_map.mp (hts ▸ (List.of_mem_zip hxt).2)
    exact he ▸ goto_mem_states hs hx
  have hidx := idxOf_map fun y hy he => h.itemSet_inj (s := y) (t := xt.2) hy ht he
  exact congrArg (fun i : Nat => (((n : Int), Key.symbol (r.symbol xt.1)), (i : Int))) hidx

/-- **The transitions are the translated transitions, in the same order.** -/
theorem Corresponds.entries_transitions_eq_map :
    (canonicalAutomaton g').transitions.entries = (canonicalAutomaton g).transitions.entries.map r.entry := by
  have hentries : (canonicalAutomaton g).transitions.entries = transitionsOf g (canonicalGraph g) :=
    OrderedMap.entries_ofList nodup_keys_transitionsOf
  have hentries' : (canonicalAutomaton g').transitions.entries = transitionsOf g' (canonicalGraph g') :=
    OrderedMap.entries_ofList nodup_keys_transitionsOf
  rw [hentries, hentries', h.transitionsOf_eq_map hr]

end Corresponds

end Translation

end CanonicalLR
