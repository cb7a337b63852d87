import CanonicalLR.Automaton.Basic

/-!
# Looking things up by entries

A question about a grammar or an automaton may name any entry where a symbol is expected. Another value is looked up
like a symbol, and found only where it was put; a list or a record cannot be looked up at all. For symbols the answers
are those of the functions on symbols (`productionsAt_symbol`, `beginningsOf_symbols`, `targetAt_symbol`).
-/

namespace CanonicalLR

/-- Why a look-up has no answer. -/
inductive LookupFault where
  /-- A position lies outside. -/
  | noPlace
  /-- An entry is not known. -/
  | unknown
  /-- A list or a record is given to look up. -/
  | composite
  /-- Two lookaheads of one production and dot have no order. -/
  | unordered
deriving DecidableEq

/-- The key that an entry is looked up as, in normal form. A list or a record is refused. -/
def Datum.key (d : Datum) : Except LookupFault Key := d.key?.elim (.error .composite) fun k => .ok k.normal

variable {α : Type}

namespace Grammar

/-- The productions of an entry. -/
def productionsAt (g : Grammar α) (d : Datum) : Except LookupFault (List (Production α)) := do
  match ← d.key with
  | .symbol s => return g.productionsFor s
  | _ => return []

@[simp] theorem productionsAt_symbol {g : Grammar α} {s : Symbol} :
    g.productionsAt (.symbol s) = .ok (g.productionsFor s) := rfl

/-- The beginnings of a text of entries, which starts with the symbols `read` and goes on with entries. Entries that
do not matter because a symbol before them does not derive the empty text are not looked up. -/
def beginningsAfter (g : Grammar α) (read : List Symbol) : List Datum → Except LookupFault (SortedSet Terminal × Bool)
  | [] => (g.firstOfText? read).elim (.error .unknown) .ok
  | .symbol s :: ds => beginningsAfter g (read ++ [s]) ds
  | .value v :: _ =>
    match g.firstOfText? read with
    | none => .error .unknown
    | some (_, true) => .error (if v.isComposite then .composite else .unknown)
    | some r => .ok r

/-- The terminals that a text of entries may begin with, and whether it derives the empty text. -/
def beginningsOf (g : Grammar α) (ds : List Datum) : Except LookupFault (SortedSet Terminal × Bool) :=
  g.beginningsAfter [] ds

theorem beginningsAfter_symbols {g : Grammar α} {ss read : List Symbol} :
    g.beginningsAfter read (ss.map .symbol) = (g.firstOfText? (read ++ ss)).elim (.error .unknown) .ok := by
  induction ss generalizing read with
  | nil => simp [beginningsAfter]
  | cons s ss ih => simp [beginningsAfter, ih]

theorem beginningsOf_symbols {g : Grammar α} {ss : List Symbol} :
    g.beginningsOf (ss.map .symbol) = (g.firstOfText? ss).elim (.error .unknown) .ok := by
  simp [beginningsOf, beginningsAfter_symbols]

end Grammar

/-! ## Automata -/

/-- The target of the state at a position over an entry, if there is one. -/
def Automaton.targetAt (a : Automaton α) (i : Int) (d : Datum) : Except LookupFault (Option Int) :=
  match a.successors? i with
  | none => .error .noPlace
  | some targets => return targets.get? (← d.key)

theorem targetAt_symbol {a : Automaton α} {i : Int} {x : Symbol} :
    a.targetAt i (.symbol x) = (a.target? i x).elim (.error .noPlace) .ok := by
  simp only [Automaton.targetAt, Automaton.target?]
  cases a.successors? i <;> rfl

end CanonicalLR
