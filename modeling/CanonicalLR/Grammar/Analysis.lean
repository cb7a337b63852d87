import CanonicalLR.OrderedMap
import CanonicalLR.Production
import CanonicalLR.Saturation
import CanonicalLR.Search

/-!
# Analyses of a list of productions

Which non-terminals derive the empty text, which derive a text of terminals at all, which terminals a symbol may begin
with, and which non-terminals a symbol leads to. The first two are least sets closed under a rule, the last two are
searches along a step relation.
-/

namespace CanonicalLR

variable {α : Type}

/-- The heads of productions, in order of first definition. -/
def headsOf (ps : List (Production α)) : List NonTerminal := distinct (ps.map fun p => p.head)

/-- The productions of a non-terminal. -/
def productionsOf (ps : List (Production α)) (n : NonTerminal) : List (Production α) := ps.filter fun p => p.head = n

/-- Whether a symbol is a non-terminal of a list. -/
def Symbol.isAmong (ns : List NonTerminal) : Symbol → Bool
  | .terminal _ => false
  | .nonterminal n => n ∈ ns

/-! ## Deriving the empty text, and any text at all -/

/-- The non-terminals that derive the empty text: those with a body of such non-terminals. -/
def nullableOf (ps : List (Production α)) : SortedSet NonTerminal :=
  .ofList (saturate (headsOf ps) fun known n => ps.any fun p => p.head = n && p.body.all (·.isAmong known))

/-- The non-terminals that derive a text of terminals: those with a body of terminals and such non-terminals. -/
def productiveOf (ps : List (Production α)) : List NonTerminal :=
  saturate (headsOf ps) fun known n =>
    ps.any fun p => p.head = n && p.body.all fun s => s.isTerminal || s.isAmong known

/-! ## Beginnings -/

/-- Whether a symbol is a non-terminal that derives the empty text. -/
def Symbol.isNullable (nullable : SortedSet NonTerminal) (s : Symbol) : Bool := s.isAmong nullable.toList

/-- The symbols of a text that may come first when those before them derive the empty text. -/
def leading (nullable : SortedSet NonTerminal) : List Symbol → List Symbol
  | [] => []
  | s :: ss => if s.isNullable nullable then s :: leading nullable ss else [s]

/-- The symbols that a symbol may begin with when it is replaced once. -/
def beginnings (ps : List (Production α)) (nullable : SortedSet NonTerminal) : Symbol → List Symbol
  | .terminal _ => []
  | .nonterminal n => (productionsOf ps n).flatMap fun p => leading nullable p.body

/-- The symbols in the bodies of productions, with repetitions. -/
def bodySymbols (ps : List (Production α)) : List Symbol := ps.flatMap fun p => p.body

/-- A bound on the number of symbols that a search meets: the one it starts with, and those in bodies. -/
def symbolBound (ps : List (Production α)) : Nat := (bodySymbols ps).length + 1

/-- The terminals that a symbol may begin with. -/
def startersOf (ps : List (Production α)) (nullable : SortedSet NonTerminal) (s : Symbol) : SortedSet Terminal :=
  .ofList ((Search.reach (beginnings ps nullable) (symbolBound ps) [s]).filterMap Symbol.terminal?)

/-- The terminals that each head may begin with. -/
def firstOf (ps : List (Production α)) (nullable : SortedSet NonTerminal) :
    OrderedMap NonTerminal (SortedSet Terminal) :=
  .ofList ((headsOf ps).map fun n => (n, startersOf ps nullable n))

/-! ## What a non-terminal leads to -/

/-- The non-terminals in the bodies of a non-terminal. -/
def mentions (ps : List (Production α)) (n : NonTerminal) : List NonTerminal :=
  (productionsOf ps n).flatMap fun p => p.body.filterMap Symbol.nonterminal?

/-- The non-terminals that occur in texts derived from a non-terminal. -/
def reachableFrom (ps : List (Production α)) (n : NonTerminal) : List NonTerminal :=
  Search.reach (mentions ps) (symbolBound ps) [n]

end CanonicalLR
