import CanonicalLR.Grammar.Definition
import Mathlib.Data.List.Nodup

/-!
# Faults of definitions

A definition can be read (`Definition.IsReadable`) if it has rules, if its entries declare terminals, if every rule is
a non-terminal with a text of symbols and none is written twice, if no name is reserved, and if the start symbol heads
a rule. It is complete (`Definition.IsComplete`) if every symbol of a body is declared or heads a rule.

What an error complains about is a fault of an entry, of a rule, or of the definition as a whole
(`Definition.HasFault`). A definition with a fault cannot be read (`Definition.not_isReadable_of_hasFault`).
-/

namespace CanonicalLR

variable {α : Type}

/-! ## What the parts of a definition stand for -/

namespace Datum

/-- The terminal that an entry declares: a terminal declares itself, a text the terminal of that name. -/
def terminal? : Datum → Option Terminal
  | symbol s => s.terminal?
  | value (.plain (.text name)) => if h : name = "" then none else some ⟨name, h⟩
  | value _ => none

/-- The symbol that an entry is. -/
def symbol? : Datum → Option Symbol
  | symbol s => some s
  | value _ => none

/-- What is wrong with an entry that is to declare a terminal. -/
inductive HasFault : Datum → GrammarError → Prop
  | notTerminal {d : Datum} : d.terminal? = none → HasFault d (.notTerminal d)
  | reserved {d : Datum} {t : Terminal} : d.terminal? = some t → IsReserved t.name →
      HasFault d (.reservedToken t.name)

theorem mapM_symbol?_eq_some_iff {ds : List Datum} {ss : List Symbol} :
    ds.mapM symbol? = some ss ↔ ds = ss.map .symbol := by
  induction ds generalizing ss with
  | nil => cases ss <;> simp
  | cons d ds ih => cases ss <;> cases d <;> simp [List.mapM_cons, symbol?, Option.bind_eq_some_iff, ih, and_comm]

end Datum

/-- The non-terminal that a part of a rule is. -/
def Field.nonterminal? : Field → Option NonTerminal
  | one (.symbol (.nonterminal n)) => some n
  | _ => none

/-- No name in a rule is reserved. -/
def Rule.IsUnreserved (r : Rule) : Prop := ¬IsReserved r.head.name ∧ ∀ s ∈ r.body, ¬IsReserved s.name

namespace RuleForm

/-- The head of a rule that has two or three parts (`isSome_head?_ofParts`). -/
def head? : RuleForm α → Option Field
  | bare head _ => some head
  | withAction head _ _ => some head
  | other _ => none

/-- The body of a rule that has two or three parts. -/
def body? : RuleForm α → Option Field
  | bare _ body => some body
  | withAction _ body _ => some body
  | other _ => none

/-- The payload of a rule that has three parts. -/
def payload? : RuleForm α → Option α
  | withAction _ _ action => some action
  | _ => none

/-- The non-terminal that is the head. -/
def headSymbol? (f : RuleForm α) : Option NonTerminal := f.head?.bind Field.nonterminal?

/-- The entries of a body that is a sequence. -/
def bodyEntries? (f : RuleForm α) : Option (List Datum) := f.body?.bind Field.entries?

/-- The rule that is written, if it is one over symbols. -/
def rule? (f : RuleForm α) : Option Rule := do
  let head ← f.headSymbol?
  let ds ← f.bodyEntries?
  let body ← ds.mapM Datum.symbol?
  return ⟨head, body⟩

/-- What is wrong with a written rule. -/
inductive HasFault (f : RuleForm α) : GrammarError → Prop
  | malformed {parts : List Field} : f = .other parts → HasFault f (.malformedRule parts)
  | badHead {head : Field} : f.head? = some head → head.nonterminal? = none → HasFault f (.badHead head)
  | reservedHead {n : NonTerminal} : f.headSymbol? = some n → IsReserved n.name → HasFault f (.reservedHead n.name)
  | notSymbol {n : NonTerminal} {ds : List Datum} {v : Value} : f.headSymbol? = some n → f.bodyEntries? = some ds →
      .value v ∈ ds → HasFault f (.notSymbol n.name (.value v))
  | reservedInBody {n : NonTerminal} {ds : List Datum} {s : Symbol} : f.headSymbol? = some n →
      f.bodyEntries? = some ds → .symbol s ∈ ds → IsReserved s.name → HasFault f (.reservedInBody n.name s.name)

/-- A sequence of parts has a head and a body just if there are two parts or three. -/
theorem isSome_head?_ofParts {payload : Field → α} {parts : List Field} :
    (ofParts payload parts).head?.isSome = true ↔ parts.length = 2 ∨ parts.length = 3 := by
  match parts with
  | [] => simp [ofParts, head?]
  | [_] => simp [ofParts, head?]
  | [_, _] => simp [ofParts, head?]
  | [_, _, _] => simp [ofParts, head?]
  | _ :: _ :: _ :: _ :: _ => simp [ofParts, head?]

theorem rule?_eq_some_iff {f : RuleForm α} {r : Rule} :
    f.rule? = some r ↔ f.headSymbol? = some r.head ∧ f.bodyEntries? = some (r.body.map .symbol) := by
  cases r
  simp [rule?, Option.bind_eq_some_iff, Datum.mapM_symbol?_eq_some_iff]

/-- A rule over symbols without reserved names has no fault. -/
theorem not_hasFault {f : RuleForm α} {r : Rule} (h : f.rule? = some r) (hu : r.IsUnreserved) {e : GrammarError} :
    ¬f.HasFault e := by
  obtain ⟨hhead, hbody⟩ := rule?_eq_some_iff.mp h
  intro hf
  cases hf with
  | malformed hf =>
    rw [hf] at hhead
    cases hhead
  | badHead hs hn =>
    rw [headSymbol?, hs, Option.bind_some, hn] at hhead
    cases hhead
  | reservedHead hn hres =>
    rw [hhead] at hn
    cases hn
    exact hu.1 hres
  | notSymbol _ hds hv =>
    rw [hbody] at hds
    cases hds
    simp at hv
  | reservedInBody _ hds hs hres =>
    rw [hbody] at hds
    cases hds
    exact hu.2 _ (by simpa using hs) hres

end RuleForm

/-! ## Definitions -/

/-- A definition of a grammar as it is written. -/
structure Definition (α : Type) where
  /-- The entries that declare terminals. -/
  terminals : List Datum
  /-- The rules. -/
  forms : List (RuleForm α)
  /-- The entry that names the start symbol. -/
  start : Datum

namespace Definition

/-- The grammar that is defined. -/
def grammar (d : Definition α) : Except GrammarError (Grammar α) := Grammar.ofDefinition d.terminals d.forms d.start

/-- The terminals that are declared, as often as they are. -/
def declared (d : Definition α) : List Terminal := d.terminals.filterMap Datum.terminal?

/-- The rules that are written over symbols, as often as they are. -/
def rules (d : Definition α) : List Rule := d.forms.filterMap RuleForm.rule?

/-- The heads of the rules, as often as they are. -/
def heads (d : Definition α) : List NonTerminal := d.rules.map Rule.head

/-- The start symbol: the symbol that is named, or the first head if none is. -/
def startSymbol? (d : Definition α) : Option Symbol :=
  match d.start with
  | .symbol s => some s
  | .value (.plain .nothing) => d.heads.head?.map .nonterminal
  | .value (.plain (.text name)) => if h : name = "" then none else some (.nonterminal ⟨name, h⟩)
  | .value _ => none

/-- A symbol is known if it is declared or heads a rule. -/
def Knows (d : Definition α) : Symbol → Prop
  | .terminal t => t ∈ d.declared
  | .nonterminal n => n ∈ d.heads

instance (d : Definition α) : DecidablePred d.Knows
  | .terminal t => inferInstanceAs (Decidable (t ∈ d.declared))
  | .nonterminal n => inferInstanceAs (Decidable (n ∈ d.heads))

/-- What a definition is made of: texts that stand for names are not empty, bodies are sequences, and the start is
left out, a name or a symbol. -/
structure IsAdmissible (d : Definition α) : Prop where
  terminals : .value (.plain (.text "")) ∉ d.terminals
  bodies : ∀ f ∈ d.forms, ∀ body ∈ f.body?, body.entries?.isSome = true
  start : d.start = .value (.plain .nothing) ∨ (∃ name ≠ "", d.start = .value (.plain (.text name))) ∨
    ∃ s, d.start = .symbol s

/-- A definition can be read: it has rules, declares terminals, has rules over symbols and none twice, uses no reserved
name, and starts with the head of a rule. -/
structure IsReadable (d : Definition α) : Prop where
  forms_ne : d.forms ≠ []
  terminals : ∀ x ∈ d.terminals, ∃ t, x.terminal? = some t ∧ ¬IsReserved t.name
  rules : ∀ f ∈ d.forms, ∃ r, f.rule? = some r ∧ r.IsUnreserved
  nodup : d.rules.Nodup
  start : ∃ n ∈ d.heads, d.startSymbol? = some (.nonterminal n)

/-- All symbols of bodies are known. -/
def IsComplete (d : Definition α) : Prop := ∀ r ∈ d.rules, ∀ s ∈ r.body, d.Knows s

/-- What keeps a definition that has rules from being read. -/
inductive HasFault (d : Definition α) : GrammarError → Prop
  | terminal {x : Datum} {e : GrammarError} : x ∈ d.terminals → x.HasFault e → HasFault d e
  | rule {f : RuleForm α} {e : GrammarError} : f ∈ d.forms → f.HasFault e → HasFault d e
  | duplicateRule {r : Rule} : 2 ≤ d.rules.count r → HasFault d (.duplicateRule r)
  | undefinedStart {s : Symbol} : d.startSymbol? = some s → (∀ n ∈ d.heads, s ≠ .nonterminal n) →
      HasFault d (.undefinedStart s.name)

/-- A definition that can be read has no fault. -/
theorem not_isReadable_of_hasFault {d : Definition α} {e : GrammarError} (h : d.HasFault e) : ¬d.IsReadable := by
  intro hr
  cases h with
  | terminal hx hf =>
    obtain ⟨t, ht, hu⟩ := hr.terminals _ hx
    cases hf with
    | notTerminal hn =>
      rw [hn] at ht
      cases ht
    | reserved ht' hres =>
      rw [ht] at ht'
      cases ht'
      exact hu hres
  | rule hf hfault =>
    obtain ⟨r, hr, hu⟩ := hr.rules _ hf
    exact RuleForm.not_hasFault hr hu hfault
  | @duplicateRule r hc =>
    have hle : d.rules.count r ≤ 1 := List.nodup_iff_count_le_one.mp hr.nodup r
    omega
  | undefinedStart hs hne =>
    obtain ⟨n, hn, hs'⟩ := hr.start
    rw [hs'] at hs
    cases hs
    exact hne n hn rfl

end Definition

end CanonicalLR
