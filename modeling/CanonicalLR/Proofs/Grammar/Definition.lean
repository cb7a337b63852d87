import CanonicalLR.Proofs.Grammar.Reading

/-!
# Which definitions define a grammar

A grammar is defined just by the definitions that can be read and are complete, and it is what the definition says
(`Definition.Defines`). Without rules that is the error. A definition that can be read and is not complete is answered
by the list of all occurrences of symbols that are not known (`Definition.ListsUnknown`). In every other case the error
is about a fault of the definition.

A fault keeps a definition from being read, so it is enough to tell for each answer what it says about the definition
(`Definition.outcome_grammar`).
-/

namespace CanonicalLR

variable {α : Type}

namespace Definition

/-- A list holds all occurrences of symbols that are not known, in order of the rules, and in order of the body for
each rule. -/
structure ListsUnknown (d : Definition α) (uses : List Occurrence) : Prop where
  sorted : uses.Pairwise fun o o' => o.number ≤ o'.number
  rule : ∀ o ∈ uses, ∃ i, o.number = i + 1 ∧ d.rules[i]? = some o.rule
  symbols : ∀ i r, d.rules[i]? = some r →
    (uses.filter fun o => o.number = i + 1).map Occurrence.symbol = r.body.filter fun s => ¬d.Knows s

/-- A grammar is what a definition says: the start symbol in the production 0, then the rules with their payloads one
for one, and the symbols at their first places. -/
structure Defines (d : Definition α) (g : Grammar α) : Prop where
  start : d.startSymbol? = some (.nonterminal g.start)
  augmented : g.productions[0]? = some ⟨⟨augmentedStart, [.nonterminal g.start]⟩, 0, none⟩
  rule : ∀ i f, d.forms[i]? = some f → ∃ r, f.rule? = some r ∧ g.productions[i + 1]? = some ⟨r, i + 1, f.payload?⟩
  length : g.productions.length = d.forms.length + 1
  terminals : g.terminals = distinct d.declared ++ [endMark]
  nonterminals : g.nonterminals = distinct d.heads

/-- What an answer says about a definition. -/
inductive Outcome (d : Definition α) : Except GrammarError (Grammar α) → Prop
  | noRules : d.forms = [] → Outcome d (.error .noRules)
  | faulty {e : GrammarError} : d.forms ≠ [] → d.HasFault e → Outcome d (.error e)
  | undeclared {uses : List Occurrence} : d.IsReadable → ¬d.IsComplete → d.ListsUnknown uses →
      Outcome d (.error (.undeclared uses))
  | defined {g : Grammar α} : d.IsReadable → d.IsComplete → d.Defines g → Outcome d (.ok g)

end Definition

/-! ## Symbols that are not known -/

section Occurrences

variable {p : Symbol → Prop} [DecidablePred p] {k : Nat} {rs : List Rule}

/-- The occurrences of the symbols with a property in rules that are numbered from `k`. -/
def occurrences (p : Symbol → Prop) [DecidablePred p] (k : Nat) (rs : List Rule) : List Occurrence :=
  (rs.zipIdx k).flatMap fun e => (e.1.body.filter p).map fun s => { symbol := s, number := e.2, rule := e.1 }

theorem occurrences_cons {r : Rule} : occurrences p k (r :: rs) =
    (r.body.filter p).map (fun s => { symbol := s, number := k, rule := r }) ++ occurrences p (k + 1) rs := rfl

theorem exists_of_mem_occurrences {o : Occurrence} (h : o ∈ occurrences p k rs) :
    ∃ i, o.number = i + k ∧ rs[i]? = some o.rule := by
  induction rs generalizing k with
  | nil => cases h
  | cons r rs ih =>
    rw [occurrences_cons, List.mem_append] at h
    rcases h with h | h
    · obtain ⟨s, -, rfl⟩ := List.mem_map.mp h
      exact ⟨0, (Nat.zero_add k).symm, rfl⟩
    · obtain ⟨i, hi, hr⟩ := ih h
      exact ⟨i + 1, by omega, hr⟩

theorem pairwise_occurrences : (occurrences p k rs).Pairwise fun o o' => o.number ≤ o'.number := by
  induction rs generalizing k with
  | nil => exact .nil
  | cons r rs ih =>
    rw [occurrences_cons]
    refine List.pairwise_append.mpr ⟨?_, ih, fun o ho o' ho' => ?_⟩
    · exact List.pairwise_map.mpr (List.pairwise_of_forall fun _ _ => Nat.le_refl k)
    · obtain ⟨s, -, rfl⟩ := List.mem_map.mp ho
      obtain ⟨i, hi, -⟩ := exists_of_mem_occurrences ho'
      show k ≤ o'.number
      omega

/-- The occurrences in a rule are those in its body, in order. -/
theorem filter_occurrences {i : Nat} {r : Rule} (h : rs[i]? = some r) :
    ((occurrences p k rs).filter fun o => o.number = i + k).map Occurrence.symbol = r.body.filter p := by
  induction rs generalizing k i with
  | nil => cases h
  | cons r' rs ih =>
    rw [occurrences_cons, List.filter_append, List.map_append]
    cases i with
    | zero =>
      cases h
      have hrest : (occurrences p (k + 1) rs).filter (fun o => o.number = 0 + k) = [] := by
        refine List.filter_eq_nil_iff.mpr fun o ho => ?_
        obtain ⟨j, hj, -⟩ := exists_of_mem_occurrences ho
        rw [decide_eq_true_iff]
        omega
      rw [hrest]
      simp [List.filter_map, Function.comp_def]
    | succ i =>
      have hbody : ((r'.body.filter p).map fun s => (⟨s, k, r'⟩ : Occurrence)).filter
          (fun o => o.number = i + 1 + k) = [] := by
        refine List.filter_eq_nil_iff.mpr fun o ho => ?_
        obtain ⟨s, -, rfl⟩ := List.mem_map.mp ho
        rw [decide_eq_true_iff]
        show ¬k = i + 1 + k
        omega
      have hk : i + 1 + k = i + (k + 1) := by omega
      rw [hbody, hk]
      exact ih h

end Occurrences

namespace Definition

variable {d : Definition α} {v : Vocabulary} {b : Rulebook α} {n : NonTerminal}

/-- A definition has been read, but for the symbols of its bodies. -/
structure IsRead (d : Definition α) (v : Vocabulary) (b : Rulebook α) (n : NonTerminal) : Prop where
  forms_ne : d.forms ≠ []
  vocabulary : Vocabulary.ofData d.terminals = .ok v
  rulebook : Rulebook.ofForms d.forms = .ok b
  start : d.startSymbol? = some (.nonterminal n)
  start_mem : n ∈ b.heads

/-- The terminals that are read are those that are declared, at their first places. -/
theorem terminals_of_ofData (h : Vocabulary.ofData d.terminals = .ok v) : v.terminals = distinct d.declared :=
  (Vocabulary.terminals_of_foldlM h).2

theorem rules_of_ofForms (h : Rulebook.ofForms d.forms = .ok b) : b.rules = d.rules := Rulebook.rules_of_ofForms h

theorem heads_of_ofForms (h : Rulebook.ofForms d.forms = .ok b) : b.heads = distinct d.heads := by
  rw [Rulebook.heads, rules_of_ofForms h, heads]

theorem heads_ne_nil_of_ofForms (hne : d.forms ≠ []) (h : Rulebook.ofForms d.forms = .ok b) : b.heads ≠ [] := by
  obtain ⟨f, hf⟩ := List.exists_mem_of_ne_nil _ hne
  obtain ⟨i, hi⟩ := List.mem_iff_getElem?.mp hf
  obtain ⟨entry, -, hrule, -⟩ := RuleForm.exists_gives (Rulebook.gives_of_ofForms h) hi
  have hmem : entry.1 ∈ b.rules := by
    rw [rules_of_ofForms h]
    exact List.mem_filterMap.mpr ⟨f, hf, hrule⟩
  exact List.ne_nil_of_mem (Rulebook.mem_heads.mpr ⟨entry.1, hmem, rfl⟩)

/-- What is defined in a grammar is what the definition knows. -/
theorem IsRead.defined_iff (h : d.IsRead v b n) {s : Symbol} : Defined v b s ↔ d.Knows s := by
  cases s with
  | terminal t =>
    show t ∈ v.terminals ↔ t ∈ d.declared
    rw [terminals_of_ofData h.vocabulary, mem_distinct]
  | nonterminal n =>
    show n ∈ b.heads ↔ n ∈ d.heads
    rw [heads_of_ofForms h.rulebook, mem_distinct]

theorem IsRead.isReadable (h : d.IsRead v b n) : d.IsReadable where
  forms_ne := h.forms_ne
  terminals := (Vocabulary.terminals_of_foldlM h.vocabulary).1
  rules f hf := by
    obtain ⟨i, hi⟩ := List.mem_iff_getElem?.mp hf
    obtain ⟨entry, -, hrule, hu, -⟩ := RuleForm.exists_gives (Rulebook.gives_of_ofForms h.rulebook) hi
    exact ⟨entry.1, hrule, hu⟩
  nodup := by
    rw [← rules_of_ofForms h.rulebook]
    exact b.nodup
  start := by
    refine ⟨n, ?_, h.start⟩
    rw [← mem_distinct, ← heads_of_ofForms h.rulebook]
    exact h.start_mem

theorem IsRead.isComplete_iff (h : d.IsRead v b n) :
    d.IsComplete ↔ ∀ r ∈ b.rules, ∀ s ∈ r.body, Defined v b s := by
  simp only [IsComplete, rules_of_ofForms h.rulebook, h.defined_iff]

/-- What is complained about is what is not known. -/
theorem IsRead.listsUnknown (h : d.IsRead v b n) : d.ListsUnknown (undeclaredUses v b) := by
  have huses : undeclaredUses v b = occurrences (fun s => ¬d.Knows s) 1 d.rules := by
    simp only [undeclaredUses, occurrences, h.defined_iff, rules_of_ofForms h.rulebook]
  rw [huses]
  exact ⟨pairwise_occurrences, fun o ho => exists_of_mem_occurrences ho, fun i r hr => filter_occurrences hr⟩

/-- The grammar that is made of what was read is what the definition says. -/
theorem IsRead.defines (h : d.IsRead v b n) (hd : ∀ r ∈ b.rules, ∀ s ∈ r.body, Defined v b s) :
    d.Defines (.make v b n h.start_mem hd) where
  start := h.start
  augmented := rfl
  rule i f hf := by
    obtain ⟨entry, hentry, hrule, -, hpayload⟩ := RuleForm.exists_gives (Rulebook.gives_of_ofForms h.rulebook) hf
    refine ⟨entry.1, hrule, ?_⟩
    show (augment n b)[i + 1]? = _
    simp [augment, List.getElem?_zipIdx, hentry, hpayload, Nat.add_comm]
  length := by
    show (augment n b).length = _
    simp [augment, (Rulebook.gives_of_ofForms h.rulebook).length_eq]
  terminals := by
    show v.terminals ++ [endMark] = _
    rw [terminals_of_ofData h.vocabulary]
  nonterminals := heads_of_ofForms h.rulebook

/-- **What each answer says about the definition.** -/
theorem outcome_grammar (hd : d.IsAdmissible) : d.Outcome d.grammar := by
  unfold grammar Grammar.ofDefinition
  by_cases hne : d.forms = []
  · rw [hne]
    exact .noRules hne
  · rw [if_neg fun h => hne (List.isEmpty_iff.mp h)]
    cases hv : Vocabulary.ofData d.terminals with
    | error e => exact .faulty hne (hasFault_of_ofData hd.terminals hv)
    | ok v =>
      cases hb : Rulebook.ofForms d.forms with
      | error e => exact .faulty hne (hasFault_of_ofForms hd.bodies hb)
      | ok b =>
        rcases readStart_cases hd (heads_of_ofForms hb) (heads_ne_nil_of_ofForms hne hb) with
          ⟨⟨n, hn⟩, hread, hstart⟩ | ⟨e, hread, hfault⟩
        · have hr : d.IsRead v b n := ⟨hne, hv, hb, hstart, hn⟩
          simp only [bind, Except.bind, hread]
          split
          · rename_i hdefined
            exact .defined hr.isReadable (hr.isComplete_iff.mpr hdefined) (hr.defines hdefined)
          · rename_i hundefined
            exact .undeclared hr.isReadable (fun h => hundefined (hr.isComplete_iff.mp h)) hr.listsUnknown
        · simp only [bind, Except.bind, hread]
          exact .faulty hne hfault

/-! ## The answers -/

/-- An answer is the right one for a definition: a grammar just for the definitions that can be read and are complete,
and it is what the definition says; without rules the error for that; for a definition that can be read and is not
complete all that is not known; for any other an error about a fault that it has. -/
structure Settles (d : Definition α) (answer : Except GrammarError (Grammar α)) : Prop where
  ok_iff : (∃ g, answer = .ok g) ↔ d.IsReadable ∧ d.IsComplete
  defines : ∀ g, answer = .ok g → d.Defines g
  noRules : d.forms = [] → answer = .error .noRules
  undeclared : d.IsReadable → ¬d.IsComplete → ∃ uses, answer = .error (.undeclared uses) ∧ d.ListsUnknown uses
  faulty : d.forms ≠ [] → ¬d.IsReadable → ∃ e, answer = .error e ∧ d.HasFault e

theorem Outcome.settles {answer : Except GrammarError (Grammar α)} (h : d.Outcome answer) : d.Settles answer := by
  cases h with
  | noRules hempty =>
    have hno : ¬d.IsReadable := fun hr => hr.forms_ne hempty
    exact {
      ok_iff := iff_of_false nofun fun h => hno h.1
      defines := nofun
      noRules := fun _ => rfl
      undeclared := fun hr => absurd hr hno
      faulty := fun hne => absurd hempty hne }
  | faulty hne hfault =>
    have hno : ¬d.IsReadable := not_isReadable_of_hasFault hfault
    exact {
      ok_iff := iff_of_false nofun fun h => hno h.1
      defines := nofun
      noRules := fun hempty => absurd hempty hne
      undeclared := fun hr => absurd hr hno
      faulty := fun _ _ => ⟨_, rfl, hfault⟩ }
  | undeclared hr hno huses =>
    exact {
      ok_iff := iff_of_false nofun fun h => hno h.2
      defines := nofun
      noRules := fun hempty => absurd hempty hr.forms_ne
      undeclared := fun _ _ => ⟨_, rfl, huses⟩
      faulty := fun _ hnr => absurd hr hnr }
  | defined hr hc hg =>
    exact {
      ok_iff := iff_of_true ⟨_, rfl⟩ ⟨hr, hc⟩
      defines := fun g h => Except.ok.inj h ▸ hg
      noRules := fun hempty => absurd hempty hr.forms_ne
      undeclared := fun _ hnc => absurd hc hnc
      faulty := fun _ hnr => absurd hr hnr }

/-- **Exactly the well-formed definitions define a grammar**, and every other definition is answered by what is wrong
with it. -/
theorem settles_grammar (d : Definition α) (hd : d.IsAdmissible) : d.Settles d.grammar := (outcome_grammar hd).settles

end Definition

namespace Brackets

/-- Texts of brackets. -/
def word : NonTerminal := ⟨"brackets", by decide⟩

/-- The bracket that opens. -/
def left : Terminal := ⟨"[", by decide⟩

/-- The bracket that closes. -/
def right : Terminal := ⟨"]", by decide⟩

/-- A bracket that opens, one that closes, and what is between them and behind them. -/
def pair : Rule := ⟨word, [left, word, right, word]⟩

/-- The definition of texts of brackets, in which some terminals are declared. -/
def definition (terminals : List Datum) : Definition Unit where
  terminals := terminals
  forms := [.ofSymbols pair.head pair.body (some ()), .ofSymbols word [] none]
  start := .value (.plain .nothing)

/-- Both brackets are declared, and one of them twice. -/
def declarations : List Datum := [.value (.plain (.text "]")), .symbol left, .symbol right]

theorem isReadable_definition : (definition declarations).IsReadable where
  forms_ne := by decide
  terminals x hx := by
    simp only [definition, declarations, List.mem_cons, List.not_mem_nil, or_false] at hx
    rcases hx with rfl | rfl | rfl
    · exact ⟨right, rfl, by decide⟩
    · exact ⟨left, rfl, by decide⟩
    · exact ⟨right, rfl, by decide⟩
  rules f hf := by
    simp only [definition, List.mem_cons, List.not_mem_nil, or_false] at hf
    rcases hf with rfl | rfl
    · exact ⟨pair, rfl, by decide, by decide⟩
    · exact ⟨⟨word, []⟩, rfl, by decide, by decide⟩
  nodup := by decide
  start := ⟨word, by decide, rfl⟩

/-- A bracket that is declared twice is a terminal at its first place. -/
theorem settles_definition : (definition declarations).IsAdmissible ∧ ∃ g, (definition declarations).grammar = .ok g ∧
    (definition declarations).Defines g ∧ g.terminals = [right, left, endMark] := by
  have hd : (definition declarations).IsAdmissible := ⟨by decide, by decide, .inl rfl⟩
  have hc : (definition declarations).IsComplete := by
    unfold Definition.IsComplete
    decide
  have h := Definition.settles_grammar (definition declarations) hd
  obtain ⟨g, hg⟩ := h.ok_iff.mpr ⟨isReadable_definition, hc⟩
  exact ⟨hd, g, hg, h.defines g hg, (h.defines g hg).terminals⟩

/-- Where nothing is declared both brackets are complained about. -/
example : (definition []).grammar = .error (.undeclared [⟨left, 1, pair⟩, ⟨right, 1, pair⟩]) := rfl

end Brackets

end CanonicalLR
