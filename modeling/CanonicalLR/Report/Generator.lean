import CanonicalLR.Automaton.Canonical
import CanonicalLR.Grammar.Listing
import CanonicalLR.Report.Diagnostic
import CanonicalLR.Table.Compile

/-!
# Making a table and reporting on it

`generate` makes the canonical automaton of a grammar and its table. It reports on symbols that are of no use and on
conflicts, and writes a listing if a destination is given for it. Conflicts that are expected in just that number draw
no warning. What a destination opens, and why it may fail to, is decided outside.
-/

namespace CanonicalLR

/-- The version of this library. -/
def version : String := "0.1.0"

/-- The settings of a generator. A setting may have any value. -/
structure Settings where
  /-- The destination of the listing. None is written if it is empty. -/
  debugFile : Value
  /-- The number of shift/reduce conflicts that draws no warning, if it is one. -/
  expectedShiftReduce : Value
  /-- The number of reduce/reduce conflicts that draws no warning, if it is one. -/
  expectedReduceReduce : Value
deriving DecidableEq

/-- Settings that replace others where they are given. -/
structure Overrides where
  debugFile : Option Value
  expectedShiftReduce : Option Value
  expectedReduceReduce : Option Value

/-- The word for a setting that is not given. -/
def Overrides.absentMark : String := "MISSING"

namespace Settings

/-- No listing, and nothing expected. -/
def standard : Settings := ⟨.plain .nothing, .plain .nothing, .plain .nothing⟩

/-- The settings with some of them replaced. -/
def override (s : Settings) (o : Overrides) : Settings where
  debugFile := o.debugFile.getD s.debugFile
  expectedShiftReduce := o.expectedShiftReduce.getD s.expectedShiftReduce
  expectedReduceReduce := o.expectedReduceReduce.getD s.expectedReduceReduce

/-- The number of conflicts of a kind that is expected. -/
def expected (s : Settings) : ConflictKind → Value
  | .shiftReduce => s.expectedShiftReduce
  | .reduceReduce => s.expectedReduceReduce

/-- Whether a number of conflicts of a kind is the expected one. -/
def expects (s : Settings) (kind : ConflictKind) (count : Nat) : Bool := (s.expected kind).number? = some (count : Int)

end Settings

variable {α : Type}

/-- The reports on the symbols of a grammar that are of no use. -/
def grammarReport (g : Grammar α) : List Diagnostic :=
  let unused := g.unusedTerminals
  (if unused.isEmpty then [] else [.unusedTokens unused, .unusedCount unused.length]) ++
    g.unreachable.map .unreachable ++ g.underivable.map .underivable

/-- The report on the number of conflicts of a kind: none if there are none, or as many as expected. -/
def countReport (s : Settings) (t : ParsingTable α) (kind : ConflictKind) : List Diagnostic :=
  let count := (t.conflictsOf kind).length
  if count = 0 ∨ s.expects kind count then [] else [.conflictCount kind count]

/-- The reports on the conflicts of a table. -/
def conflictReport (s : Settings) (t : ParsingTable α) : List Diagnostic :=
  ConflictKind.all.flatMap (countReport s t) ++ t.conflicts.map .conflict

/-- What a generator makes of a grammar. Files are of the type `φ` and failures to open one of the type `ε`. -/
structure Generated (α ε φ : Type) where
  automaton : Automaton α
  table : ParsingTable α
  diagnostics : List Diagnostic
  /-- The file that the listing is written to, if there is one, with its text, unless it cannot be opened. -/
  listing : Except ε (Option (φ × String))

/-- The text of a listing. -/
def listingText (g : Grammar α) (t : ParsingTable α) : String := g.listing ++ "\n" ++ t.listing?.getD ""

variable {ε φ : Type}

/-- Writes a text to the destination for the listing, if there is one. The destination has to be opened. -/
def writeListing (openFile : Value → Except ε φ) (s : Settings) (text : String) : Except ε (Option (φ × String)) :=
  if s.debugFile.isEmpty then .ok none else (openFile s.debugFile).map fun file => some (file, text)

/-- The report on a listing that is written. -/
def listingReport (s : Settings) : Except ε (Option (φ × String)) → List Diagnostic
  | .ok (some _) => [.listingWritten s.debugFile]
  | _ => []

/-- Makes the table of a grammar and reports on it. -/
def generate (openFile : Value → Except ε φ) (s : Settings) (g : Grammar α) : Generated α ε φ :=
  let automaton := canonicalAutomaton g
  let table := automaton.table
  let listing := writeListing openFile s (listingText g table)
  { automaton, table, listing
    diagnostics := grammarReport g ++ [.stateCount automaton.size] ++ conflictReport s table ++
      listingReport s listing }

end CanonicalLR
