import CanonicalLR.Datum

/-!
# Actions and conflicts

What a parser does on a terminal in a state, and the record of a choice between several such actions.
-/

namespace CanonicalLR

/-- What a parser does next. -/
inductive Action where
  /-- Takes the lookahead and goes to a state. -/
  | shift (state : Int)
  /-- Replaces the body of a production on the stack by its head. -/
  | reduce (production : Int)
  /-- Ends with success. -/
  | accept
deriving DecidableEq

namespace Action

/-- The wording of an action. -/
def text : Action → String
  | shift state => s!"shift and go to state {state}"
  | reduce production => s!"reduce using rule {production}"
  | accept => "accept"

/-- The form of an action in messages. -/
def debugForm : Action → String
  | shift state => s!"Shift(state={state})"
  | reduce production => s!"Reduce(production={production})"
  | accept => "Accept()"

/-- Whether an action is a shift. -/
def isShift : Action → Bool
  | shift _ => true
  | _ => false

/-- The number of the production that an action reduces by. -/
def reduction? : Action → Option Int
  | reduce production => some production
  | _ => none

/-- The number of the rule that an action completes: accepting completes production 0. -/
def ruleNumber? : Action → Option Int
  | shift _ => none
  | reduce production => some production
  | accept => some 0

/-- The action that completes the rule of a number. -/
def completing (number : Int) : Action := if number = 0 then accept else reduce number

end Action

/-- The two kinds of conflicts. -/
inductive ConflictKind where
  | shiftReduce
  | reduceReduce
deriving DecidableEq

namespace ConflictKind

/-- All kinds. -/
def all : List ConflictKind := [shiftReduce, reduceReduce]

/-- The wording of a kind. -/
def text : ConflictKind → String
  | shiftReduce => "shift/reduce"
  | reduceReduce => "reduce/reduce"

/-- The word that stands for a kind in data. -/
def word : ConflictKind → String
  | shiftReduce => "shift_reduce"
  | reduceReduce => "reduce_reduce"

/-- The name of a kind in messages. -/
def label : ConflictKind → String
  | shiftReduce => "SHIFT_REDUCE"
  | reduceReduce => "REDUCE_REDUCE"

end ConflictKind

/-- A state and a terminal with several actions, of which one was chosen and one rejected. In a conflict that is given
another entry may stand for the terminal. -/
structure Conflict where
  state : Int
  terminal : Datum
  kind : ConflictKind
  chosen : Action
  rejected : Action
deriving DecidableEq

/-- The wording of a conflict. -/
def Conflict.text (c : Conflict) : String :=
  s!"{c.kind.text} conflict for {c.terminal.plainForm} in state {c.state} " ++
    s!"resolved as {c.chosen.text} (rejected {c.rejected.text})"

/-- The form of a conflict in messages. -/
def Conflict.debugForm (c : Conflict) : String :=
  s!"Conflict(state={c.state}, terminal={c.terminal.debugForm}, " ++
    s!"kind=<ConflictKind.{c.kind.label}: {Text.quote c.kind.word}>, " ++
    s!"chosen={c.chosen.debugForm}, rejected={c.rejected.debugForm})"

end CanonicalLR
