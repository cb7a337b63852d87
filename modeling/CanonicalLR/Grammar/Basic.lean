import CanonicalLR.Grammar.Analysis
import CanonicalLR.Position

/-!
# Grammars

A grammar has declared terminals, numbered rules and a start symbol, and is augmented with the production 0, which
replaces the augmented start by the start symbol. What makes a definition well formed is part of the type: no reserved
name is used, no terminal and no rule is given twice, the start symbol has a rule, and every symbol of a body is
declared or has a rule. `Grammar.make` builds the grammar and its analyses from such a definition.
-/

namespace CanonicalLR

/-! ## Declared terminals -/

/-- The declared terminals of a grammar. -/
structure Vocabulary where
  /-- The terminals, in order of declaration. -/
  terminals : List Terminal
  nodup : terminals.Nodup
  unreserved : ∀ t ∈ terminals, ¬ IsReserved t.name

namespace Vocabulary

/-- No terminals. -/
def empty : Vocabulary := ⟨[], .nil, by simp⟩

/-- Declares a terminal. Declaring it again changes nothing. -/
def add (v : Vocabulary) (t : Terminal) (ht : ¬ IsReserved t.name) : Vocabulary :=
  if hm : t ∈ v.terminals then v else
    { terminals := v.terminals ++ [t]
      nodup := by
        refine List.nodup_append.mpr ⟨v.nodup, by simp, fun a ha b hb hab => hm ?_⟩
        rw [← List.mem_singleton.mp hb, ← hab]
        exact ha
      unreserved := by
        intro u hu
        rcases List.mem_append.mp hu with hu | hu
        · exact v.unreserved u hu
        · rw [List.mem_singleton.mp hu]
          exact ht }

end Vocabulary

/-! ## Rules -/

/-- The rules of a grammar, each with its payload. -/
structure Rulebook (α : Type) where
  /-- The rules with their payloads, in order of definition. -/
  entries : List (Rule × Option α)
  nodup : (entries.map Prod.fst).Nodup
  unreserved : ∀ e ∈ entries, ¬ IsReserved e.1.head.name ∧ ∀ s ∈ e.1.body, ¬ IsReserved s.name

namespace Rulebook

variable {α : Type}

/-- No rules. -/
def empty : Rulebook α := ⟨[], .nil, by simp⟩

/-- The rules, in order of definition. -/
def rules (b : Rulebook α) : List Rule := b.entries.map Prod.fst

/-- The non-terminals with rules, in order of first definition. -/
def heads (b : Rulebook α) : List NonTerminal := distinct (b.rules.map Rule.head)

theorem mem_heads {b : Rulebook α} {n : NonTerminal} : n ∈ b.heads ↔ ∃ r ∈ b.rules, r.head = n := by
  simp [heads]

/-- Adds a rule that is not there yet. -/
def add (b : Rulebook α) (r : Rule) (action : Option α) (hn : r ∉ b.rules) (hh : ¬ IsReserved r.head.name)
    (hb : ∀ s ∈ r.body, ¬ IsReserved s.name) : Rulebook α where
  entries := b.entries ++ [(r, action)]
  nodup := by
    rw [List.map_append]
    refine List.nodup_append.mpr ⟨b.nodup, by simp, fun x hx y hy hxy => hn ?_⟩
    rw [List.map_singleton, List.mem_singleton] at hy
    have e : x = r := hxy.trans hy
    exact e ▸ hx
  unreserved := by
    intro e he
    rcases List.mem_append.mp he with he | he
    · exact b.unreserved e he
    · rw [List.mem_singleton.mp he]
      exact ⟨hh, hb⟩

end Rulebook

/-- A symbol is defined if it is a declared terminal or a non-terminal with a rule. -/
def Defined {α : Type} (v : Vocabulary) (b : Rulebook α) : Symbol → Prop
  | .terminal t => t ∈ v.terminals
  | .nonterminal n => n ∈ b.heads

instance {α : Type} (v : Vocabulary) (b : Rulebook α) (s : Symbol) : Decidable (Defined v b s) :=
  match s with
  | .terminal t => inferInstanceAs (Decidable (t ∈ v.terminals))
  | .nonterminal n => inferInstanceAs (Decidable (n ∈ b.heads))

/-- The productions of a start symbol and rules: the augmented one, then the rules numbered from 1. -/
def augment {α : Type} (start : NonTerminal) (b : Rulebook α) : List (Production α) :=
  { head := augmentedStart, body := [.nonterminal start], number := 0, action := none } ::
    (b.entries.zipIdx 1).map fun e => { toRule := e.1.1, number := e.2, action := e.1.2 }

/-- The number of a production is its place. -/
theorem number_of_getElem?_augment {α : Type} {start : NonTerminal} {b : Rulebook α} {i : Nat} {p : Production α}
    (h : (augment start b)[i]? = some p) : p.number = i := by
  cases i with
  | zero =>
    simp only [augment, List.getElem?_cons_zero, Option.some.injEq] at h
    rw [← h]
  | succ i =>
    simp only [augment, List.getElem?_cons_succ, List.getElem?_map, List.getElem?_zipIdx, Option.map_map,
      Option.map_eq_some_iff] at h
    obtain ⟨e, _, rfl⟩ := h
    exact Nat.add_comm 1 i

/-- The rules are the productions after the first. -/
theorem tail_augment_map {α : Type} {start : NonTerminal} {b : Rulebook α} :
    ((augment start b).tail.map fun p => p.toRule) = b.rules := by
  simp only [augment, List.tail_cons, List.map_map, Rulebook.rules]
  conv => rhs; rw [← List.zipIdx_map_fst 1 b.entries]
  rw [List.map_map]
  rfl

/-! ## Grammars -/

/-- A well-formed grammar with its productions and analyses. -/
structure Grammar (α : Type) where
  vocabulary : Vocabulary
  rulebook : Rulebook α
  start : NonTerminal
  start_mem : start ∈ rulebook.heads
  defined : ∀ r ∈ rulebook.rules, ∀ s ∈ r.body, Defined vocabulary rulebook s
  /-- All productions. The number of a production is its place. -/
  productions : List (Production α)
  productions_eq : productions = augment start rulebook
  /-- The non-terminals that derive the empty text. -/
  nullable : SortedSet NonTerminal
  nullable_eq : nullable = nullableOf productions
  /-- The terminals that each non-terminal may begin with, the augmented start first. -/
  first : OrderedMap NonTerminal (SortedSet Terminal)
  first_eq : first = firstOf productions nullable

namespace Grammar

variable {α : Type}

/-- The grammar of a well-formed definition. -/
def make (v : Vocabulary) (b : Rulebook α) (start : NonTerminal) (hs : start ∈ b.heads)
    (hd : ∀ r ∈ b.rules, ∀ s ∈ r.body, Defined v b s) : Grammar α :=
  let productions := augment start b
  let nullable := nullableOf productions
  { vocabulary := v, rulebook := b, start, start_mem := hs, defined := hd, productions, productions_eq := rfl,
    nullable, nullable_eq := rfl, first := firstOf productions nullable, first_eq := rfl }

/-- The declared terminals in order of declaration, followed by the end marker. -/
def terminals (g : Grammar α) : List Terminal := g.vocabulary.terminals ++ [endMark]

/-- The non-terminals with rules, in order of first definition. -/
def nonterminals (g : Grammar α) : List NonTerminal := g.rulebook.heads

/-- The number of productions. -/
def size (g : Grammar α) : Nat := g.productions.length

/-- The production at a position, counted from either end. -/
def production? (g : Grammar α) (i : Int) : Option (Production α) := Position.get? g.productions i

/-- The number of a production of a grammar is its place. -/
theorem number_of_getElem? {g : Grammar α} {k : Nat} {p : Production α} (h : g.productions[k]? = some p) :
    p.number = k := number_of_getElem?_augment (g.productions_eq ▸ h)

/-- The productions of a symbol, in order of definition. -/
def productionsFor (g : Grammar α) (s : Symbol) : List (Production α) := g.productions.filter fun p => p.head = s

theorem mem_productionsFor {g : Grammar α} {n : NonTerminal} {p : Production α} :
    p ∈ g.productionsFor (.nonterminal n) ↔ p ∈ g.productions ∧ p.head = n := by
  simp [productionsFor]

/-! ## Beginnings -/

/-- The terminals that a non-terminal may begin with. -/
def firstSet (g : Grammar α) (n : NonTerminal) : SortedSet Terminal := (g.first.get? n).getD .empty

/-- Whether a text of symbols derives the empty text. -/
def derivesEmpty (g : Grammar α) (ss : List Symbol) : Bool := ss.all (·.isNullable g.nullable)

/-- The terminals that a text of symbols may begin with. -/
def firstOfText (g : Grammar α) (ss : List Symbol) : SortedSet Terminal :=
  .ofList ((leading g.nullable ss).flatMap fun
    | .terminal t => [t]
    | .nonterminal n => (g.firstSet n).toList)

/-- The terminals that a text of symbols may begin with, and whether it derives the empty text. There is no answer if
the beginning of the text depends on a non-terminal that the grammar does not have. -/
def firstOfText? (g : Grammar α) (ss : List Symbol) : Option (SortedSet Terminal × Bool) :=
  if (leading g.nullable ss).all (fun s => s.isTerminal || s.isAmong g.first.keys) then
    some (g.firstOfText ss, g.derivesEmpty ss)
  else none

/-! ## Useless symbols -/

/-- The non-terminals that no text derived from the start symbol holds. -/
def unreachable (g : Grammar α) : List NonTerminal :=
  let reachable := reachableFrom g.productions g.start
  g.nonterminals.filter (· ∉ reachable)

/-- The non-terminals that derive no text of terminals. -/
def underivable (g : Grammar α) : List NonTerminal :=
  let productive := productiveOf g.productions
  g.nonterminals.filter (· ∉ productive)

/-- The declared terminals that no body holds. -/
def unusedTerminals (g : Grammar α) : List Terminal :=
  let used := bodySymbols g.productions
  g.vocabulary.terminals.filter fun t => Symbol.terminal t ∉ used

/-- The form of a grammar in messages: its start symbol and the number of its rules. -/
def debugForm (g : Grammar α) : String :=
  s!"<Grammar start={Text.quote g.start.name} rules={g.rulebook.entries.length}>"

end Grammar

end CanonicalLR
