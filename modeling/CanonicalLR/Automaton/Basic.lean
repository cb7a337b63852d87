import CanonicalLR.Item.Set

/-!
# Automata

An automaton has item sets as its states and leads from a state over a symbol to a state. The source of a transition
is a position among the states, which may count from the end; its target is any number.
-/

namespace CanonicalLR

/-- States and transitions between them. -/
structure Automaton (α : Type) where
  grammar : Grammar α
  states : List ItemSet
  /-- The target of each state and symbol. Other keys may stand for symbols, and are passed over. -/
  transitions : OrderedMap (Int × Key) Int
  /-- Each transition leaves a state. -/
  sources : ∀ k ∈ transitions.keys, (Position.place states.length k.1).isSome

namespace Automaton

variable {α : Type}

/-- The automaton of the given parts, unless a transition leaves no state. -/
def ofParts? (grammar : Grammar α) (states : List ItemSet) (transitions : OrderedMap (Int × Key) Int) :
    Option (Automaton α) :=
  if h : ∀ k ∈ transitions.keys, (Position.place states.length k.1).isSome then
    some ⟨grammar, states, transitions, h⟩
  else none

/-- The number of states. -/
def size (a : Automaton α) : Nat := a.states.length

/-- The transitions that leave the state of number `k`. -/
def outgoing (a : Automaton α) (k : Nat) : OrderedMap Key Int :=
  .ofList <| (a.transitions.entries.filter fun e => Position.place a.size e.1.1 = some k).map fun e => (e.1.2, e.2)

/-- The transitions that leave the state at a position. -/
def successors? (a : Automaton α) (i : Int) : Option (OrderedMap Key Int) :=
  (Position.place a.size i).map a.outgoing

/-- The target of the state at a position over a symbol, if there is one. -/
def target? (a : Automaton α) (i : Int) (x : Symbol) : Option (Option Int) :=
  (a.successors? i).map (·.get? x)

/-- The number of the last state that is a given set. -/
def stateOf? (a : Automaton α) (s : ItemSet) : Option Nat :=
  (a.states.zipIdx.filter fun e => e.1 = s).getLast?.map Prod.snd

/-- The form of an automaton in messages: its numbers of states and transitions. -/
def debugForm (a : Automaton α) : String := s!"<Automaton states={a.size} transitions={a.transitions.size}>"

end Automaton

end CanonicalLR
