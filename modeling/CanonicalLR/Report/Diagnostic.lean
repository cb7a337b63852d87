import CanonicalLR.Table.Action

/-!
# Diagnostics

What is reported while a parsing table is made. Each kind of report has a level and a wording.
-/

namespace CanonicalLR

/-- How grave a message is. -/
inductive Level where
  | debug
  | info
  | warning
  | error
  | critical
deriving DecidableEq

/-- What a message of a level starts with. -/
def Level.mark : Level → String
  | debug => ""
  | info => ""
  | warning => "WARNING: "
  | error => "ERROR: "
  | critical => "CRITICAL: "

/-- A message as it stands in a log. -/
def Level.line (level : Level) (message : String) : String := level.mark ++ message ++ "\n"

/-- A report on a grammar or its table. -/
inductive Diagnostic where
  /-- Declared terminals that no rule uses. -/
  | unusedTokens (tokens : List Terminal)
  /-- The number of such terminals. -/
  | unusedCount (count : Nat)
  /-- A non-terminal that the start symbol does not lead to. -/
  | unreachable (n : NonTerminal)
  /-- A non-terminal that derives no text of terminals. -/
  | underivable (n : NonTerminal)
  /-- The number of states of the automaton. -/
  | stateCount (count : Nat)
  /-- The number of conflicts of a kind. -/
  | conflictCount (kind : ConflictKind) (count : Nat)
  /-- A conflict. -/
  | conflict (c : Conflict)
  /-- The destination that the listing was written to. -/
  | listingWritten (destination : Value)
deriving DecidableEq

namespace Diagnostic

/-- The level of a report. What may be a mistake in the grammar is a warning. -/
def level : Diagnostic → Level
  | unusedTokens _ => .warning
  | unusedCount _ => .warning
  | unreachable _ => .warning
  | underivable _ => .warning
  | stateCount _ => .debug
  | conflictCount _ _ => .warning
  | conflict _ => .debug
  | listingWritten _ => .info

/-- The ending of a word that stands for `count` things. -/
def plural (count : Nat) : String := if count = 1 then "" else "s"

/-- The wording of a report. -/
def text : Diagnostic → String
  | unusedTokens tokens =>
    let names := "\x7b" ++ ",".intercalate (tokens.map Terminal.name) ++ "\x7d"
    let ending := if 1 < tokens.length then "(s)" else ""
    s!"Token{ending} {names} defined, but not used"
  | unusedCount count =>
    let verb := if count = 1 then "is" else "are"
    s!"There {verb} {count} unused token{plural count}"
  | unreachable n => s!"Symbol {Text.quote n.name} is unreachable"
  | underivable n => s!"Infinite recursion detected for symbol {Text.quote n.name}"
  | stateCount count => s!"Built LR(1) automaton with {count} states"
  | conflictCount kind count => s!"{count} {kind.text} conflict{plural count}"
  | conflict c => c.text
  | listingWritten destination => s!"Parser debugging written to {destination.plainForm}"

/-- A report as it stands in a log. -/
def line (d : Diagnostic) : String := d.level.line d.text

end Diagnostic

end CanonicalLR
