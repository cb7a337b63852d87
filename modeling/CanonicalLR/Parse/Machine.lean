import CanonicalLR.Parse.Tree
import CanonicalLR.Table.Basic

/-!
# The parser

A parser runs a table over a stream of tokens with a stack of states and a stack of trees. `step` is a single move,
`run` a number of moves. A run may be endless on a table with conflicts, so the number of moves is bounded from
outside, and a run that is not over by then has no outcome; `run_mono` says that allowing more moves keeps an outcome.

Nothing is asked of the table. A reduction takes as many trees and states off the stacks as there are; a move that
finds no state, target or production stops the run with a fault.
-/

namespace CanonicalLR

/-- What keeps a run from going on, apart from a syntax error. -/
inductive MachineFault where
  /-- The table reduces by a production that does not exist. -/
  | noProduction
  /-- A reduction took the last state off the stack. -/
  | noState
  /-- There is no target for a state and the head of a production. -/
  | noTarget
  /-- The table accepts, but there is no tree. -/
  | noTree
  /-- A token is no text and has no type. -/
  | noLabel
  /-- The type of a token cannot be looked up. -/
  | badLabel
deriving DecidableEq

/-- How a run ends. -/
inductive Outcome (α τ : Type) where
  | accepted (tree : Tree α τ)
  | syntaxError (token : Option (Token τ)) (state : Int) (expected : List Terminal)
  | fault (f : MachineFault)

/-- A parser between two moves. Both stacks have their top first; the stack of states is never empty. -/
structure Config (α τ : Type) where
  /-- The state on top of the stack. -/
  state : Int
  /-- The states below it. -/
  below : List Int
  /-- The trees on the stack. -/
  trees : List (Tree α τ)
  /-- The stream from the lookahead on. -/
  input : List (Option (Token τ))

variable {α τ : Type}

namespace Config

/-- The parser before its first move. -/
def initial (input : List (Option (Token τ))) : Config α τ := ⟨0, [], [], input⟩

/-- The token that is looked at. There is none at the end of the stream, nor where the stream holds nothing. -/
def lookahead (c : Config α τ) : Option (Token τ) := c.input.head?.join

/-- How many elements of a stream have been taken, the lookahead among them. -/
def taken (stream : List (Option (Token τ))) (c : Config α τ) : Nat := stream.length - (c.input.length - 1)

end Config

/-- The result of a move: the parser after it, or the outcome of the run. -/
inductive Move (α τ : Type) where
  | next (c : Config α τ)
  | stop (o : Outcome α τ)

namespace ParsingTable

variable (t : ParsingTable α)

/-- The declared terminal of a name. The end marker is none: it never comes from a token. -/
def terminalOf? (name : String) : Option Terminal := t.grammar.vocabulary.terminals.find? fun a => a.name = name

/-- The terminal that a lookahead stands for, if it stands for one. Without a token it is the end marker. -/
def classify : Option (Token τ) → Except MachineFault (Option Terminal)
  | none => .ok (some endMark)
  | some token =>
    match token.reading? with
    | some (.text name) => .ok (t.terminalOf? name)
    | some .other => .ok none
    | some .structured => .error .badLabel
    | none => .error .noLabel

/-- The action on a lookahead in a state. -/
def actionOn (state : Int) (lookahead : Option (Token τ)) : Except MachineFault (Option Action) := do
  match ← t.classify lookahead with
  | none => return none
  | some a => return t.action.get? (state, .terminal a)

/-- Reduces by a production: its trees become one, and the state below them decides which state comes next. -/
def reduce (c : Config α τ) (p : Production α) : Move α τ :=
  let n := p.body.length
  let tree := Tree.node p (c.trees.take n).reverse
  match (c.state :: c.below).drop n with
  | [] => .stop (.fault .noState)
  | exposed :: below =>
    match t.goto.get? (exposed, .nonterminal p.head) with
    | none => .stop (.fault .noTarget)
    | some state => .next { c with state, below := exposed :: below, trees := tree :: c.trees.drop n }

/-- One move of the parser. -/
def step (c : Config α τ) : Move α τ :=
  match t.actionOn c.state c.lookahead with
  | .error f => .stop (.fault f)
  | .ok none => .stop (.syntaxError c.lookahead c.state (t.expected c.state))
  | .ok (some (.shift state)) =>
    .next { state, below := c.state :: c.below, trees := .leaf c.lookahead :: c.trees, input := c.input.tail }
  | .ok (some (.reduce i)) =>
    match t.grammar.production? i with
    | none => .stop (.fault .noProduction)
    | some p => t.reduce c p
  | .ok (some .accept) =>
    match c.trees with
    | [] => .stop (.fault .noTree)
    | tree :: _ => .stop (.accepted tree)

/-- Runs the parser for a bounded number of moves. The result is the outcome and the parser that met it. -/
def run : Nat → Config α τ → Option (Outcome α τ × Config α τ)
  | 0, _ => none
  | moves + 1, c =>
    match t.step c with
    | .next c' => run moves c'
    | .stop o => some (o, c)

/-- Parses a stream with a bounded number of moves. The result is the outcome and how many elements were taken. -/
def parse? (moves : Nat) (stream : List (Option (Token τ))) : Option (Outcome α τ × Nat) :=
  (t.run moves (.initial stream)).map fun r => (r.1, r.2.taken stream)

/-- A run that is over stays as it is when more moves are allowed. -/
theorem run_mono {m n : Nat} {c : Config α τ} {r : Outcome α τ × Config α τ} (h : t.run m c = some r)
    (hmn : m ≤ n) : t.run n c = some r := by
  induction m generalizing n c with
  | zero => cases h
  | succ m ih =>
    obtain ⟨k, rfl⟩ : ∃ k, n = k + 1 := ⟨n - 1, by omega⟩
    simp only [run] at h ⊢
    split at h
    · exact ih h (by omega)
    · exact h

end ParsingTable

/-- The wording of a syntax error. -/
def syntaxErrorMessage (token : Option (Token τ)) (state : Int) (expected : List Terminal) : String :=
  let place := match token with
    | none => "at end of input"
    | some token => s!"at token {token.shown.debugForm}"
  let names := match expected with
    | [] => "nothing"
    | ts => ", ".intercalate (ts.map Terminal.name)
  s!"Syntax error {place} in state {state}; expected one of: {names}"

end CanonicalLR
