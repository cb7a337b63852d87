import CanonicalLR.Symbol

/-!
# Rules and productions

A rule says that its head may be replaced by its body. A production is a rule with its number in a grammar and with
the payload that was attached to it, which is carried along and never looked at.
-/

namespace CanonicalLR

/-- A rule: a head and the symbols that may stand for it. -/
structure Rule where
  head : NonTerminal
  body : List Symbol
deriving DecidableEq

/-- The names of symbols, with a blank between them. -/
def namesOf (ss : List Symbol) : String := " ".intercalate (ss.map Symbol.name)

/-- A rule as it is written in listings. -/
def Rule.text (r : Rule) : String :=
  if r.body = [] then s!"{r.head.name} -> <empty>" else s!"{r.head.name} -> {namesOf r.body}"

/-- A rule with its number and its payload. -/
structure Production (α : Type) extends Rule where
  number : Nat
  action : Option α

/-- The form of a production in messages: its number and its rule. -/
def Production.debugForm {α : Type} (p : Production α) : String := s!"Production({p.number}, {p.text})"

end CanonicalLR
