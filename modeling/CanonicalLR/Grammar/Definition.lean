import CanonicalLR.Grammar.Basic
import CanonicalLR.Grammar.Error

/-!
# Reading a definition

`Grammar.ofDefinition` checks a written definition and builds its grammar. The first fault decides the answer: rules
are missing, then the declared terminals in order, then the rules in order, then the start symbol, and last the
symbols that are neither declared nor have a rule, which are all reported together.
-/

namespace CanonicalLR

variable {α : Type}

/-! ## Declared terminals -/

/-- The terminal that an entry declares. A text declares the terminal of that name. -/
def Terminal.ofDatum : Datum → Except GrammarError Terminal
  | .symbol (.terminal t) => .ok t
  | .value (.plain (.text name)) => (Terminal.ofName name).mapError .badSymbol
  | d => .error (.notTerminal d)

/-- Declares the terminal of an entry. -/
def Vocabulary.declare (v : Vocabulary) (d : Datum) : Except GrammarError Vocabulary := do
  let t ← Terminal.ofDatum d
  if h : IsReserved t.name then
    .error (.reservedToken t.name)
  else
    .ok (v.add t h)

/-- The terminals that a list of entries declares. -/
def Vocabulary.ofData (ds : List Datum) : Except GrammarError Vocabulary := ds.foldlM declare empty

/-! ## Rules -/

/-- The symbols of a body for the head of a given name. -/
def readBody (head : String) : List Datum → Except GrammarError { ss : List Symbol // ∀ s ∈ ss, ¬ IsReserved s.name }
  | [] => .ok ⟨[], by simp⟩
  | .value v :: _ => .error (.notSymbol head (.value v))
  | .symbol s :: ds =>
    if h : IsReserved s.name then
      .error (.reservedInBody head s.name)
    else do
      let ⟨ss, hs⟩ ← readBody head ds
      .ok ⟨s :: ss, by simp only [List.mem_cons, forall_eq_or_imp]; exact ⟨h, hs⟩⟩

/-- Adds the rule that is written as a head and a body. -/
def Rulebook.addWritten (b : Rulebook α) (head body : Field) (action : Option α) :
    Except GrammarError (Rulebook α) :=
  match head with
  | .one (.symbol (.nonterminal n)) =>
    match body.entries? with
    | none => .error .bodyNotSequence
    | some ds =>
      if hn : IsReserved n.name then
        .error (.reservedHead n.name)
      else do
        let ⟨ss, hs⟩ ← readBody n.name ds
        if hd : ⟨n, ss⟩ ∈ b.rules then
          .error (.duplicateRule ⟨n, ss⟩)
        else
          .ok (b.add ⟨n, ss⟩ action hd hn hs)
  | head => .error (.badHead head)

/-- Adds a written rule. -/
def Rulebook.read (b : Rulebook α) : RuleForm α → Except GrammarError (Rulebook α)
  | .bare head body => b.addWritten head body none
  | .withAction head body action => b.addWritten head body (some action)
  | .other parts => .error (.malformedRule parts)

/-- The rules that are written in a list. -/
def Rulebook.ofForms (forms : List (RuleForm α)) : Except GrammarError (Rulebook α) := forms.foldlM read empty

/-! ## The start symbol -/

/-- The start symbol of the given name, which has to have a rule. -/
def Rulebook.findStart (b : Rulebook α) (s : Symbol) : Except GrammarError { n : NonTerminal // n ∈ b.heads } :=
  match s with
  | .nonterminal n => if h : n ∈ b.heads then .ok ⟨n, h⟩ else .error (.undefinedStart n.name)
  | .terminal t => .error (.undefinedStart t.name)

/-- The start symbol that an entry names: the head of the first rule if it names none. -/
def Rulebook.readStart (b : Rulebook α) : Datum → Except GrammarError { n : NonTerminal // n ∈ b.heads }
  | .symbol s => b.findStart s
  | .value (.plain .nothing) =>
    match h : b.heads with
    | [] => .error .noRules
    | n :: _ => .ok ⟨n, by simp⟩
  | .value (.plain (.text name)) => do
    let n ← (NonTerminal.ofName name).mapError .badSymbol
    b.findStart n
  | .value (.plain _) => .error .namelessStart
  | .value _ => .error .compositeStart

/-! ## The grammar -/

/-- The occurrences of symbols that are neither declared nor have a rule, in order of the rules. -/
def undeclaredUses (v : Vocabulary) (b : Rulebook α) : List Occurrence :=
  (b.rules.zipIdx 1).flatMap fun e =>
    (e.1.body.filter fun s => ¬ Defined v b s).map fun s => { symbol := s, number := e.2, rule := e.1 }

/-- The grammar that a written definition defines. -/
def Grammar.ofDefinition (terminals : List Datum) (forms : List (RuleForm α)) (start : Datum) :
    Except GrammarError (Grammar α) :=
  if forms.isEmpty then
    .error .noRules
  else do
    let v ← Vocabulary.ofData terminals
    let b ← Rulebook.ofForms forms
    let ⟨n, hn⟩ ← b.readStart start
    if hd : ∀ r ∈ b.rules, ∀ s ∈ r.body, Defined v b s then
      .ok (.make v b n hn hd)
    else
      .error (.undeclared (undeclaredUses v b))

end CanonicalLR
