import CanonicalLR.Grammar.Basic
import CanonicalLR.Key
import CanonicalLR.Table.Action

/-!
# Parsing tables

A table gives the action for a state and a terminal and the target for a state and a non-terminal, and keeps the
conflicts that were met when it was made. Nothing is asked of its entries: a state is any number, and an entry for a
key that is no symbol is never looked up.
-/

namespace CanonicalLR

/-- A parsing table for a grammar. -/
structure ParsingTable (α : Type) where
  grammar : Grammar α
  stateCount : Int
  /-- The action for each state and terminal. A missing entry is a syntax error. -/
  action : OrderedMap (Int × Key) Action
  /-- The target for each state and non-terminal. -/
  goto : OrderedMap (Int × Key) Int
  conflicts : List Conflict
  /-- The listings of the states. -/
  descriptions : List String

namespace ParsingTable

variable {α : Type} (t : ParsingTable α)

/-- The actions of a state, in order of the declaration of terminals. -/
def actionsFor (state : Int) : List (Terminal × Action) :=
  t.grammar.terminals.filterMap fun a => (t.action.get? (state, .terminal a)).map fun act => (a, act)

/-- The targets of a state, in order of the definition of non-terminals. -/
def gotosFor (state : Int) : List (NonTerminal × Int) :=
  t.grammar.nonterminals.filterMap fun n => (t.goto.get? (state, .nonterminal n)).map fun j => (n, j)

/-- The terminals that are no syntax error in a state. -/
def expected (state : Int) : List Terminal := (t.actionsFor state).map Prod.fst

/-- The conflicts of a kind. -/
def conflictsOf (kind : ConflictKind) : List Conflict := t.conflicts.filter fun c => c.kind = kind

/-- The form of a table in messages: its numbers of states and conflicts. -/
def debugForm : String := s!"<ParsingTable states={t.stateCount} conflicts={t.conflicts.length}>"

/-! ## Listing -/

/-- The productions that lost a choice between reductions and that no entry reduces by, each once. -/
def neverReduced : List Int :=
  let reduced := t.action.entries.filterMap fun e => e.2.reduction?
  distinct <| (t.conflictsOf .reduceReduce).filterMap fun c => c.rejected.reduction?.filter (· ∉ reduced)

/-- The complaint about a production that is never reduced, if there is a production of that number. -/
def neverReducedLine (number : Int) : Option String :=
  (t.grammar.production? number).map fun p => s!"Rule ({p.text}) is never reduced"

/-- The listing of a table: its states, its conflicts, and the productions that are never reduced because of them. It
fails if a conflict speaks of a production that the grammar does not have. -/
def listing? : Option String := do
  let conflicts ←
    if t.conflicts.isEmpty then some []
    else do
      let never ← t.neverReduced.mapM t.neverReducedLine
      some ("\nConflicts:\n" :: t.conflicts.map Conflict.text ++ never)
  return "\n".intercalate (t.descriptions ++ conflicts)

end ParsingTable

end CanonicalLR
