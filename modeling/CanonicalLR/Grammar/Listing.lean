import CanonicalLR.Grammar.Basic
import CanonicalLR.Text.Words

/-!
# Listing of a grammar

The listing shows the numbered rules, the symbols that are of no use, and for each symbol the rules whose bodies hold
it. Parts with nothing to show are left out.
-/

namespace CanonicalLR.Grammar

variable {α : Type}

/-- A heading and what stands under it, unless that is nothing. -/
def titled (heading : String) : List String → List String
  | [] => []
  | lines => s!"\n{heading}:\n" :: lines.map fun line => s!"    {line}"

/-- A symbol with the numbers of the productions whose bodies hold it. -/
def usesLine (g : Grammar α) (s : Symbol) : String :=
  match g.productions.filter fun p => s ∈ p.body with
  | [] => s!"{s.name} :"
  | ps => s!"{s.name} : " ++ " ".intercalate (ps.map fun p => toString p.number)

/-- The listing of a grammar. -/
def listing (g : Grammar α) : String :=
  "\n".intercalate <|
    ["Grammar:\n"] ++
    (g.productions.map fun p => s!"Rule {Text.padRight 5 (toString p.number)} {p.text}") ++
    titled "Unused terminals" (g.unusedTerminals.map Terminal.name) ++
    titled "Unreachable nonterminals" (g.unreachable.map NonTerminal.name) ++
    titled "Nonterminals deriving no terminal string" (g.underivable.map NonTerminal.name) ++
    ["\nTerminals, with rules where they appear:\n"] ++
    (g.terminals.map fun t => g.usesLine (.terminal t)) ++
    ["\nNonterminals, with rules where they appear:\n"] ++
    (g.nonterminals.map fun n => g.usesLine (.nonterminal n)) ++
    [""]

end CanonicalLR.Grammar
