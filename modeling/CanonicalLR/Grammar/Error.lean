import CanonicalLR.Grammar.Form
import CanonicalLR.Production

/-!
# What may be wrong with a definition

Each constructor is one cause for which a definition of a grammar is refused, and `GrammarError.message` words it.
-/

namespace CanonicalLR

/-- An occurrence of a symbol in the body of a numbered rule. -/
structure Occurrence where
  symbol : Symbol
  number : Nat
  rule : Rule
deriving DecidableEq

/-- Why a definition of a grammar is refused. -/
inductive GrammarError where
  /-- There are no rules. -/
  | noRules
  /-- A name is not acceptable for a symbol. -/
  | badSymbol (e : SymbolError)
  /-- A declared terminal is no terminal. -/
  | notTerminal (d : Datum)
  /-- A declared terminal has a reserved name. -/
  | reservedToken (name : String)
  /-- A rule has neither two nor three parts. -/
  | malformedRule (parts : List Field)
  /-- The head of a rule is no non-terminal. -/
  | badHead (head : Field)
  /-- The body of a rule is no sequence. -/
  | bodyNotSequence
  /-- The head of a rule has a reserved name. -/
  | reservedHead (name : String)
  /-- An entry of a body is no symbol. -/
  | notSymbol (head : String) (d : Datum)
  /-- A symbol of a body has a reserved name. -/
  | reservedInBody (head name : String)
  /-- A rule is given twice. -/
  | duplicateRule (r : Rule)
  /-- The start symbol has no rule. -/
  | undefinedStart (name : String)
  /-- The start symbol is a value that has no name. -/
  | namelessStart
  /-- The start symbol is a list or a record. -/
  | compositeStart
  /-- Symbols of bodies are neither declared nor have a rule. -/
  | undeclared (uses : List Occurrence)
  /-- A name that is to head a rule is a terminal already. -/
  | headIsToken (name : String)
  /-- A symbol of a rule has an empty name. -/
  | emptyName (head : String)
  /-- A quoted literal does not hold a single character. -/
  | badLiteral (literal head : String)
deriving DecidableEq

/-- The complaint about a symbol that is not declared. -/
def Occurrence.message (o : Occurrence) : String :=
  s!"Symbol {Text.quote o.symbol.name} used in rule ({o.rule.text}), but not defined as a token or a rule"

/-- The wording of a refusal. -/
def GrammarError.message : GrammarError → String
  | noRules => "No grammar rules are defined."
  | badSymbol e => e.message
  | notTerminal d => s!"Declared terminal {d.debugForm} is not a Terminal."
  | reservedToken name => s!"Illegal token name {Text.quote name}. Is a reserved word."
  | malformedRule parts =>
    s!"Malformed rule {RuleForm.partsForm parts}. Must be (head, body) or (head, body, action)."
  | badHead head => s!"Illegal rule name {head.calledForm}. A rule's head must be a NonTerminal."
  | bodyNotSequence => "The body of a rule must be a sequence."
  | reservedHead name => s!"Illegal rule name {Text.quote name}. Is a reserved word."
  | notSymbol head d => s!"Rule for {Text.quote head} contains {d.debugForm}, which is not a Symbol."
  | reservedInBody head name => s!"Rule for {Text.quote head} uses the reserved symbol {Text.quote name}."
  | duplicateRule r => s!"Duplicate rule {r.text}."
  | undefinedStart name => s!"Start symbol {Text.quote name} undefined."
  | namelessStart => "The start symbol must have a name."
  | compositeStart => "The start symbol must not be a list or a record."
  | undeclared uses => "\n".intercalate ("Unable to build grammar." :: uses.map Occurrence.message)
  | headIsToken name => s!"Illegal rule name {Text.quote name}. Already defined as a token."
  | emptyName head => s!"Empty symbol name in rule {Text.quote head}."
  | badLiteral literal head =>
    s!"Literal token {literal} in rule {Text.quote head} may only be a single character."

end CanonicalLR
