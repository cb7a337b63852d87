import CanonicalLR.Automaton.Basic
import CanonicalLR.Table.Basic
import CanonicalLR.Text.Words

/-!
# Making a table from an automaton

Each item of a state stands for one action: at the end of its body it reduces on its lookahead, or accepts on the end
marker if it is an item of production 0; before a terminal it shifts that terminal. Where several actions meet, a
shift wins over reductions and an earlier rule over a later one, and each action that loses leaves a conflict.

An automaton made by hand may hold an item that lies outside the grammar or has no symbol for its lookahead, or miss a
transition. `Automaton.fault?` looks for the first such place; the table of an automaton without one is
`Automaton.table`.
-/

namespace CanonicalLR

/-! ## Choosing an action -/

/-- The outcome of a choice between actions. -/
structure Resolution where
  chosen : Action
  kind : ConflictKind
  /-- The actions that lost, in order of their rules. -/
  rejected : List Action
deriving DecidableEq

/-- The actions among candidates that complete a rule, in order of the rules. -/
def completions (candidates : List Action) : List Action :=
  (SortedSet.ofList (candidates.filterMap Action.ruleNumber?)).toList.map Action.completing

/-- Chooses between actions: a shift if there is one, the earliest rule if not. -/
def resolve (candidates : List Action) : Option Resolution :=
  match candidates.find? Action.isShift, completions candidates with
  | some shift, rejected => some ⟨shift, .shiftReduce, rejected⟩
  | none, [] => none
  | none, chosen :: rejected => some ⟨chosen, .reduceReduce, rejected⟩

/-! ## Rows -/

/-- The part of a table that belongs to one state. -/
structure Row where
  state : Nat
  items : ItemSet
  /-- The choices on terminals, in order of the declaration of terminals. -/
  cells : List (Terminal × Resolution)
  /-- The targets over non-terminals, in order of the transitions. -/
  gotos : List (NonTerminal × Int)

variable {α : Type}

/-- The action that an item stands for, and the key it is taken on. -/
def Item.action? (g : Grammar α) (successors : OrderedMap Key Int) (it : Item) : Option (Key × Action) :=
  match g.production? it.production with
  | none => none
  | some p =>
    if it.dot = p.body.length then
      if p.number = 0 then some (.terminal endMark, .accept) else some (it.lookahead, .reduce p.number)
    else
      match Position.get? p.body it.dot with
      | some (.terminal t) => (successors.get? (.terminal t)).map fun j => (.terminal t, .shift j)
      | _ => none

/-- The choice between the actions that are taken on a terminal. -/
def resolveOn (candidates : List (Key × Action)) (t : Terminal) : Option (Terminal × Resolution) :=
  (resolve ((candidates.filter fun c => c.1 = .terminal t).map Prod.snd)).map fun r => (t, r)

/-- The row of a state. -/
def Automaton.row (a : Automaton α) (state : Nat) (items : ItemSet) : Row :=
  let successors := a.outgoing state
  let candidates := items.toList.filterMap (Item.action? a.grammar successors)
  { state, items
    cells := a.grammar.terminals.filterMap (resolveOn candidates)
    gotos := successors.entries.filterMap fun e => (e.1.symbol?.bind Symbol.nonterminal?).map fun n => (n, e.2) }

/-- The rows of all states. -/
def Automaton.rows (a : Automaton α) : List Row := a.states.zipIdx.map fun e => a.row e.2 e.1

namespace Row

/-- The conflicts of a row, those of a terminal in order of the rules that lost. -/
def conflicts (r : Row) : List Conflict :=
  r.cells.flatMap fun c => c.2.rejected.map fun rejected =>
    { state := r.state, terminal := .symbol c.1, kind := c.2.kind, chosen := c.2.chosen, rejected }

/-- The entries of a row in the table of actions. -/
def actions (r : Row) : List ((Int × Key) × Action) :=
  r.cells.map fun c => (((r.state : Int), Key.terminal c.1), c.2.chosen)

/-- The entries of a row in the table of targets. -/
def targets (r : Row) : List ((Int × Key) × Int) :=
  r.gotos.map fun e => (((r.state : Int), Key.nonterminal e.1), e.2)

/-! ### Listing -/

/-- An action with the rule that it reduces by. -/
def actionText (g : Grammar α) (a : Action) : String :=
  match a.reduction?.bind g.production? with
  | some p => s!"{a.text} ({p.text})"
  | none => a.text

/-- The notes on the choices on a terminal, one for each action that lost. -/
def notes (g : Grammar α) (c : Terminal × Resolution) : List String :=
  c.2.rejected.map fun _ =>
    s!"  ! {c.2.kind.text} conflict for {c.1.name} resolved as {actionText g c.2.chosen}"

/-- The listing of a row: the items, the actions, the targets and the notes on conflicts. -/
def listing (g : Grammar α) (r : Row) : String :=
  "\n".intercalate <|
    [s!"\nstate {r.state}\n"] ++
    ((r.items.lines g).toOption.getD []).map (fun line => s!"    {line}") ++
    [""] ++
    (r.cells.map fun c => s!"    {Text.padRight 15 c.1.name} {actionText g c.2.chosen}") ++
    (r.gotos.map fun e => s!"    {Text.padRight 30 e.1.name} {(Action.shift e.2).text}") ++
    r.cells.flatMap (notes g)

end Row

/-! ## The table -/

/-- The table of an automaton. -/
def Automaton.table (a : Automaton α) : ParsingTable α :=
  let rows := a.rows
  { grammar := a.grammar
    stateCount := a.size
    action := .ofList (rows.flatMap Row.actions)
    goto := .ofList (rows.flatMap Row.targets)
    conflicts := rows.flatMap Row.conflicts
    descriptions := rows.map (Row.listing a.grammar) }

/-- Why an automaton has no table. -/
inductive AutomatonFault where
  /-- An item names a production, or a place in its body, that does not exist. -/
  | noPlace
  /-- A state lacks the transition over a terminal that stands after a dot. -/
  | noTransition
  /-- A lookahead is no symbol, so that its state cannot be listed. -/
  | namelessLookahead
deriving DecidableEq

/-- What is wrong with an item of a state. -/
def Item.fault? (g : Grammar α) (successors : OrderedMap Key Int) (it : Item) : Option AutomatonFault :=
  match g.production? it.production with
  | none => some .noPlace
  | some p =>
    if it.dot = p.body.length then none
    else
      match Position.get? p.body it.dot with
      | none => some .noPlace
      | some (.nonterminal _) => none
      | some (.terminal t) => if (successors.get? (.terminal t)).isSome then none else some .noTransition

/-- What is wrong with a state: with the first of its items that is at fault, or else with the lookaheads. -/
def Automaton.stateFault? (a : Automaton α) (state : Nat) (items : ItemSet) : Option AutomatonFault :=
  let successors := a.outgoing state
  match items.toList.findSome? (Item.fault? a.grammar successors) with
  | some e => some e
  | none => if items.hasSymbols then none else some .namelessLookahead

/-- The first fault of an automaton, in order of the states. -/
def Automaton.fault? (a : Automaton α) : Option AutomatonFault :=
  a.states.zipIdx.findSome? fun e => a.stateFault? e.2 e.1

/-- The table of an automaton without faults. -/
def Automaton.compile (a : Automaton α) : Except AutomatonFault (ParsingTable α) :=
  match a.fault? with
  | some e => .error e
  | none => .ok a.table

end CanonicalLR
