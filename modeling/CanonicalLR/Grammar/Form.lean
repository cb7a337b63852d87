import CanonicalLR.Datum

/-!
# Written definitions

What a definition of a grammar consists of before it is checked: rules of any shape, whose parts are entries or
sequences of entries.
-/

namespace CanonicalLR

/-- A part of a rule: one entry or a sequence of entries. -/
inductive Field where
  | one (d : Datum)
  | many (ds : List Datum)
deriving DecidableEq

namespace Field

/-- The form of a part in messages. A sequence stands in square brackets. -/
def debugForm : Field → String
  | one d => d.debugForm
  | many ds => "[" ++ ", ".intercalate (ds.map Datum.debugForm) ++ "]"

/-- The name that a message calls a part by: the quoted name of a symbol, the form of anything else. -/
def calledForm : Field → String
  | one (.symbol s) => Text.quote s.name
  | f => f.debugForm

/-- The entries of a part that is a sequence. -/
def entries? : Field → Option (List Datum)
  | many ds => some ds
  | one (.value v) => v.elements?.map fun vs => vs.map .value
  | one (.symbol _) => none

end Field

/-- A rule as it is written: a head, a body and perhaps a payload, or parts in another number. -/
inductive RuleForm (α : Type) where
  | bare (head body : Field)
  | withAction (head body : Field) (action : α)
  | other (parts : List Field)

namespace RuleForm

variable {α : Type}

/-- The rule that is written as a sequence of parts, the third of which stands for a payload. -/
def ofParts (payload : Field → α) : List Field → RuleForm α
  | [head, body] => bare head body
  | [head, body, action] => withAction head body (payload action)
  | parts => other parts

/-- The rule with a given head and body, and perhaps a payload. -/
def ofSymbols (head : NonTerminal) (body : List Symbol) : Option α → RuleForm α
  | none => bare (.one (.symbol head)) (.many (body.map .symbol))
  | some action => withAction (.one (.symbol head)) (.many (body.map .symbol)) action

/-- The form of parts in messages. They stand in parentheses, with a comma after a part that is alone. -/
def partsForm : List Field → String
  | [f] => s!"({f.debugForm},)"
  | fs => "(" ++ ", ".intercalate (fs.map Field.debugForm) ++ ")"

end RuleForm

end CanonicalLR
