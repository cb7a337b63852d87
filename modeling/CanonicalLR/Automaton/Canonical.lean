import CanonicalLR.Automaton.Basic
import CanonicalLR.Item.Closure

/-!
# The canonical automaton

The states of the canonical automaton are the sets that goto reaches from the closure of the initial item. They are
numbered in breadth-first order, and the transitions stand in order of their states and, within a state, of the
symbols after its dots.
-/

namespace CanonicalLR

variable {α : Type} (g : Grammar α)

/-- The sets that goto leads to from a set, one for each symbol after a dot. -/
def ItemSet.targets (s : ItemSet) : List ItemSet := (s.nextSymbols g).map (goto g s.toList)

/-- The items with a production of the grammar, a dot in or at an end of its body, and a terminal of the grammar. -/
def properItems : List Item :=
  g.productions.flatMap fun p => (List.range (p.body.length + 1)).flatMap fun k =>
    g.terminals.map fun t => ⟨p.number, (k : Nat), .terminal t⟩

/-- A bound on the number of states: the number of sets of such items. -/
def stateBound : Nat := Nat.pow 2 (properItems g).length

/-- The item sets that goto reaches, each with the sets that goto leads to from it. -/
def canonicalGraph : List (ItemSet × List ItemSet) :=
  Search.graph (ItemSet.targets g) (stateBound g) [closure g [initialItem]]

/-- The transitions of a graph of item sets. -/
def transitionsOf (graph : List (ItemSet × List ItemSet)) : List ((Int × Key) × Int) :=
  let states := graph.map Prod.fst
  graph.zipIdx.flatMap fun e =>
    ((e.1.1.nextSymbols g).zip e.1.2).map fun xt => (((e.2 : Nat), .symbol xt.1), (states.idxOf xt.2 : Nat))

theorem place_of_mem_transitionsOf {graph : List (ItemSet × List ItemSet)} {e : (Int × Key) × Int}
    (he : e ∈ transitionsOf g graph) : (Position.place graph.length e.1.1).isSome := by
  obtain ⟨d, hd, he⟩ := List.mem_flatMap.mp he
  obtain ⟨xt, _, rfl⟩ := List.mem_map.mp he
  have hlt := (List.mem_zipIdx hd).2.1
  simp only [Position.place_natCast]
  rw [if_pos (by omega)]
  rfl

/-- The canonical automaton of a grammar. -/
def canonicalAutomaton : Automaton α :=
  let graph := canonicalGraph g
  { grammar := g
    states := graph.map Prod.fst
    transitions := .ofList (transitionsOf g graph)
    sources := by
      intro k hk
      obtain ⟨e, he, rfl⟩ := List.mem_map.mp (OrderedMap.mem_keys_ofList.mp hk)
      rw [List.length_map]
      exact place_of_mem_transitionsOf g he }

end CanonicalLR
