import CanonicalLR.Grammar.Definition
import CanonicalLR.Text.Words

/-!
# Building a grammar from names

A builder collects names of terminals and rules over names. A single character in quotes is a literal, which declares
the terminal of that character. What a name in a body stands for is settled when the grammar is built: a terminal if
the name is declared by then, a non-terminal if not.

Every step yields the builder that results from it beside the error it ended with, if any: a step that fails may have
declared literals before it did.
-/

namespace CanonicalLR

/-- A rule over names. -/
structure NamedRule (α : Type) where
  head : String
  body : List String
  action : Option α

/-- A grammar under construction. -/
structure Builder (α : Type) where
  /-- The names of the declared terminals, in order of declaration. -/
  terminals : List String
  /-- The rules, in order of addition. -/
  rules : List (NamedRule α)
  /-- The name of the start symbol, if one was chosen. -/
  start : Option String

namespace Builder

variable {α : Type}

/-- Nothing declared and no rules. -/
def empty : Builder α := ⟨[], [], none⟩

/-- Declares the terminal of a name that is not reserved. Declaring it again changes nothing. -/
def declareName (terminals : List String) (name : String) : List String :=
  if name ∈ terminals then terminals else terminals ++ [name]

/-- Declares a terminal. -/
def declare (b : Builder α) (name : String) : Except GrammarError (Builder α) :=
  if IsReserved name then
    .error (.reservedToken name)
  else
    .ok { b with terminals := declareName b.terminals name }

/-- The builder with the terminals of a list declared. -/
def new (terminals : List String) : Except GrammarError (Builder α) := terminals.foldlM declare empty

/-! ## Adding a rule -/

/-- What a written symbol turns out to be. -/
inductive Written where
  /-- A name, which stands for itself. -/
  | plain (name : String)
  /-- A quoted character. -/
  | literal (name : String)
  /-- No name at all. -/
  | missing
  /-- Quotes around anything but a single character. -/
  | malformed

/-- Reads a written symbol. A symbol that starts and ends with the same quote is quoted, even if the two are one. -/
def readSymbol (s : String) : Written :=
  match s.toList with
  | [] => .missing
  | c :: cs =>
    if (c = '\'' ∨ c = '"') ∧ (c :: cs).getLast (by simp) = c then
      match cs.dropLast with
      | [d] => .literal d.toString
      | _ => .malformed
    else .plain s

/-- Reads the symbols of a body in order. The terminals with the literals declared so far come first, then either the
names that the symbols stand for or the first fault. -/
def readSymbols (head : String) (terminals : List String) :
    List String → List String × Except GrammarError (List String)
  | [] => (terminals, .ok [])
  | s :: ss =>
    match readSymbol s with
    | .missing => (terminals, .error (.emptyName head))
    | .malformed => (terminals, .error (.badLiteral s head))
    | .literal name =>
      let (terminals, rest) := readSymbols head (declareName terminals name) ss
      (terminals, (name :: ·) <$> rest)
    | .plain name =>
      let (terminals, rest) := readSymbols head terminals ss
      (terminals, (name :: ·) <$> rest)

/-- Adds the rule `head → body`. -/
def add (b : Builder α) (head : String) (body : List String) (action : Option α) :
    Builder α × Option GrammarError :=
  if head ∈ b.terminals then
    (b, some (.headIsToken head))
  else if IsReserved head then
    (b, some (.reservedHead head))
  else
    match readSymbols head b.terminals body with
    | (terminals, .error e) => ({ b with terminals }, some e)
    | (terminals, .ok body) => ({ b with terminals, rules := b.rules ++ [⟨head, body, action⟩] }, none)

/-- Adds the rule whose body is written as one text, its symbols with blanks between them. -/
def addText (b : Builder α) (head body : String) (action : Option α) : Builder α × Option GrammarError :=
  b.add head (Text.words body) action

/-- Chooses the start symbol. Without a name it is the head of the first rule. -/
def setStart (b : Builder α) (start : Option String) : Builder α := { b with start }

/-! ## Building -/

/-- The symbol that a name stands for. -/
def symbol (b : Builder α) (name : String) : Except GrammarError Symbol :=
  (Symbol.ofName (if name ∈ b.terminals then .terminal else .nonterminal) name).mapError .badSymbol

/-- The rule over symbols that a rule over names stands for. -/
def form (b : Builder α) (r : NamedRule α) : Except GrammarError (RuleForm α) := do
  let head ← (NonTerminal.ofName r.head).mapError .badSymbol
  let body ← r.body.mapM b.symbol
  return .ofSymbols head body r.action

/-- The grammar that has been put together. -/
def build (b : Builder α) : Except GrammarError (Grammar α) := do
  let forms ← b.rules.mapM b.form
  let start := match b.start with
    | none => .nothing
    | some name => .text name
  Grammar.ofDefinition (b.terminals.map fun name => .value (.plain (.text name))) forms (.value (.plain start))

end Builder

end CanonicalLR
