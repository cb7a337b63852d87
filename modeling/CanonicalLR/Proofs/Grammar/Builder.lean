import CanonicalLR.Grammar.Builder
import CanonicalLR.Proofs.Grammar.Production
import CanonicalLR.Proofs.Grammar.Reading

/-!
# Names that are declared after they head a rule

A rule is not added under a name that is a terminal by then. Nothing keeps a name that heads a rule from being declared
later on, be it outright or by a literal in a body, also one that ends with an error. A name both heads a rule and is
declared just if one of the steps did that (`clashes_run_iff`).

What a grammar makes of its names is settled when it is built (`reads_of_build`). So its heads are kept apart from its
terminals just if no such step was taken; a name that was declared too late stands for its terminal in every body, and
the rules under it are out of reach (`heads_apart_iff`).
-/

namespace CanonicalLR

variable {α : Type}

/-! ## Lists that are computed member by member -/

section Except

variable {ε β γ : Type}

/-- What is computed for the members of a list, one for one. -/
theorem forall₂_of_mapM {f : β → Except ε γ} {xs : List β} {ys : List γ} (h : xs.mapM f = .ok ys) :
    List.Forall₂ (fun x y => f x = .ok y) xs ys := by
  induction xs generalizing ys with
  | nil =>
    cases h
    exact .nil
  | cons x xs ih =>
    rw [List.mapM_cons, bind_eq_ok_iff] at h
    obtain ⟨y, hy, h⟩ := h
    rw [bind_eq_ok_iff] at h
    obtain ⟨ys', hys, h⟩ := h
    cases h
    exact .cons hy (ih hys)

theorem exists_of_forall₂ {R : β → γ → Prop} {xs : List β} {ys : List γ} (h : List.Forall₂ R xs ys) {y : γ}
    (hy : y ∈ ys) : ∃ x ∈ xs, R x y := by
  induction h with
  | nil => cases hy
  | @cons x y' xs ys hxy _ ih =>
    rcases List.mem_cons.mp hy with rfl | hy
    · exact ⟨x, List.mem_cons_self, hxy⟩
    · obtain ⟨x', hx', h⟩ := ih hy
      exact ⟨x', List.mem_cons_of_mem x hx', h⟩

end Except

namespace Builder

/-! ## Histories -/

/-- A step in the making of a grammar. -/
inductive Operation (α : Type) where
  | declare (name : String)
  | add (head : String) (body : List String) (action : Option α)
  | addText (head body : String) (action : Option α)
  | setStart (start : Option String)

/-- The builder that a step leaves, also one that ends with an error. -/
def apply (b : Builder α) : Operation α → Builder α
  | .declare name => (b.declare name).toOption.getD b
  | .add head body action => (b.add head body action).1
  | .addText head body action => (b.addText head body action).1
  | .setStart start => b.setStart start

/-- The builder that steps leave. -/
def run (b : Builder α) (ops : List (Operation α)) : Builder α := ops.foldl apply b

/-- A name both heads a rule and is declared. -/
def Clashes (b : Builder α) (name : String) : Prop := name ∈ b.terminals ∧ ∃ r ∈ b.rules, r.head = name

/-- A step declares a name for the first time, and the name heads a rule by then. -/
def DeclaresHead (b : Builder α) (op : Operation α) (name : String) : Prop :=
  name ∉ b.terminals ∧ (b.apply op).Clashes name

/-- One of the steps declares a name that heads a rule by then. -/
def DeclaresHeadAmong (b : Builder α) (ops : List (Operation α)) (name : String) : Prop :=
  ∃ before op after, ops = before ++ op :: after ∧ (b.run before).DeclaresHead op name

variable {b : Builder α} {name : String}

/-- What a step does to a builder: no declaration and no rule is lost, and new rules have heads that were not
declared. -/
structure Extends (b b' : Builder α) : Prop where
  terminals : ∀ name ∈ b.terminals, name ∈ b'.terminals
  rules : ∃ added, b'.rules = b.rules ++ added ∧ ∀ r ∈ added, r.head ∉ b.terminals

theorem Extends.refl (b : Builder α) : b.Extends b := ⟨fun _ h => h, [], (List.append_nil _).symm, nofun⟩

theorem mem_declareName {terminals : List String} {name' : String} :
    name' ∈ declareName terminals name ↔ name' ∈ terminals ∨ name' = name := by
  unfold declareName
  split
  · rename_i h
    exact ⟨.inl, fun h' => h'.elim id fun he => he ▸ h⟩
  · rw [List.mem_append, List.mem_singleton]

theorem mem_readSymbols {head : String} : ∀ {ss terminals : List String}, name ∈ terminals →
    name ∈ (readSymbols head terminals ss).1
  | [], _, h => h
  | s :: ss, terminals, h => by
    rw [readSymbols]
    split
    · exact h
    · exact h
    · exact mem_readSymbols (mem_declareName.mpr (.inl h))
    · exact mem_readSymbols h

theorem extends_add (head : String) (body : List String) (action : Option α) :
    b.Extends (b.add head body action).1 := by
  unfold add
  split
  · exact .refl b
  · rename_i hhead
    split
    · exact .refl b
    · have hterminals : ∀ name ∈ b.terminals, name ∈ (readSymbols head b.terminals body).1 :=
        fun _ h => mem_readSymbols h
      split
      · rename_i hread
        rw [hread] at hterminals
        exact ⟨hterminals, [], (List.append_nil _).symm, nofun⟩
      · rename_i hread
        rw [hread] at hterminals
        refine ⟨hterminals, _, rfl, fun r hr => ?_⟩
        rw [List.mem_singleton.mp hr]
        exact hhead

/-- **What every step does.** -/
theorem extends_apply (op : Operation α) : b.Extends (b.apply op) := by
  cases op with
  | declare name =>
    rw [apply, declare]
    split
    · exact .refl b
    · exact ⟨fun _ h => mem_declareName.mpr (.inl h), [], (List.append_nil _).symm, nofun⟩
  | add head body action => exact extends_add head body action
  | addText head body action => exact extends_add head (Text.words body) action
  | setStart start => exact ⟨fun _ h => h, [], (List.append_nil _).symm, nofun⟩

/-- A name clashes after a step just if it did before, or if the step declares it while it heads a rule. -/
theorem clashes_apply_iff {op : Operation α} : (b.apply op).Clashes name ↔ b.Clashes name ∨ b.DeclaresHead op name := by
  obtain ⟨hterminals, added, hrules, hadded⟩ := extends_apply (b := b) op
  constructor
  · intro h
    by_cases hn : name ∈ b.terminals
    · -- a rule that the step adds has another head, so the rule was there before
      obtain ⟨-, r, hr, rfl⟩ := h
      rw [hrules, List.mem_append] at hr
      exact .inl ⟨hn, r, hr.resolve_right fun hr => hadded r hr hn, rfl⟩
    · exact .inr ⟨hn, h⟩
  · rintro (⟨hn, r, hr, rfl⟩ | h)
    · exact ⟨hterminals _ hn, r, by rw [hrules]; exact List.mem_append_left _ hr, rfl⟩
    · exact h.2

/-- **A name clashes after some steps just if it did before, or if one of them declares it while it heads a rule.** -/
theorem clashes_run_iff {ops : List (Operation α)} :
    (b.run ops).Clashes name ↔ b.Clashes name ∨ b.DeclaresHeadAmong ops name := by
  induction ops generalizing b with
  | nil =>
    refine ⟨.inl, fun h => h.elim id ?_⟩
    rintro ⟨before, op, after, he, -⟩
    cases before <;> cases he
  | cons op ops ih =>
    have hrun : b.run (op :: ops) = (b.apply op).run ops := rfl
    rw [hrun, ih, clashes_apply_iff, or_assoc]
    refine or_congr_right ?_
    constructor
    · rintro (h | ⟨before, op', after, rfl, h⟩)
      · exact ⟨[], op, ops, rfl, h⟩
      · exact ⟨op :: before, op', after, rfl, h⟩
    · rintro ⟨before, op', after, he, h⟩
      cases before with
      | nil =>
        obtain ⟨rfl, rfl⟩ := List.cons.inj he
        exact .inl h
      | cons o before =>
        obtain ⟨rfl, rfl⟩ := List.cons.inj he
        exact .inr ⟨before, op', after, rfl, h⟩

/-- Declaring names adds no rules. -/
theorem rules_of_foldlM_declare {names : List String} {b b' : Builder α} (h : names.foldlM declare b = .ok b') :
    b'.rules = b.rules := by
  induction names generalizing b with
  | nil =>
    cases h
    rfl
  | cons name names ih =>
    obtain ⟨c, hc, h⟩ := foldlM_cons_eq_ok_iff.mp h
    rw [ih h]
    unfold declare at hc
    split at hc
    · cases hc
    · cases hc
      rfl

/-- A builder that was just made has no rules. -/
theorem rules_of_new {names : List String} (h : Builder.new names = .ok b) : b.rules = [] :=
  rules_of_foldlM_declare h

end Builder

/-! ## Symbols of names -/

theorem Terminal.name_of_ofName {name : String} {t : Terminal} (h : Terminal.ofName name = .ok t) : t.name = name := by
  unfold Terminal.ofName at h
  split at h
  · cases h
  · cases h
    rfl

theorem NonTerminal.name_of_ofName {name : String} {n : NonTerminal} (h : NonTerminal.ofName name = .ok n) :
    n.name = name := by
  unfold NonTerminal.ofName at h
  split at h
  · cases h
  · cases h
    rfl

theorem Symbol.name_of_ofName {kind : SymbolKind} {name : String} {s : Symbol} (h : Symbol.ofName kind name = .ok s) :
    s.name = name ∧ s.kind = kind := by
  cases kind with
  | terminal =>
    cases ht : Terminal.ofName name with
    | error e =>
      rw [Symbol.ofName, ht] at h
      cases h
    | ok t =>
      rw [Symbol.ofName, ht] at h
      cases h
      exact ⟨Terminal.name_of_ofName ht, rfl⟩
  | nonterminal =>
    cases hn : NonTerminal.ofName name with
    | error e =>
      rw [Symbol.ofName, hn] at h
      cases h
    | ok n =>
      rw [Symbol.ofName, hn] at h
      cases h
      exact ⟨NonTerminal.name_of_ofName hn, rfl⟩

/-! ## What a grammar makes of its names -/

theorem name_of_terminal? {name : String} {t : Terminal}
    (h : (Datum.value (.plain (.text name))).terminal? = some t) : t.name = name :=
  Terminal.name_of_ofName (mapError_eq_ok_iff.mp (Terminal.ofDatum_eq_ok_iff.mpr h))

/-- The names that a list of texts declares are the texts. -/
theorem exists_terminal_of_ofData {names : List String} {v : Vocabulary}
    (h : Vocabulary.ofData (names.map fun name => .value (.plain (.text name))) = .ok v) (name : String) :
    (∃ t ∈ v.terminals, t.name = name) ↔ name ∈ names := by
  obtain ⟨hnames, hterminals⟩ := Vocabulary.terminals_of_foldlM h
  have hmem (t : Terminal) : t ∈ v.terminals ↔ ∃ x ∈ names, (Datum.value (.plain (.text x))).terminal? = some t := by
    rw [hterminals]
    simp [Vocabulary.empty, mem_fresh]
  constructor
  · rintro ⟨t, ht, rfl⟩
    obtain ⟨x, hx, hxt⟩ := (hmem t).mp ht
    rw [name_of_terminal? hxt]
    exact hx
  · intro hname
    obtain ⟨t, ht, -⟩ := hnames _ (List.mem_map_of_mem hname)
    exact ⟨t, (hmem t).mpr ⟨name, hname, ht⟩, name_of_terminal? ht⟩

theorem rule?_ofSymbols {head : NonTerminal} {body : List Symbol} {action : Option α} :
    (RuleForm.ofSymbols head body action).rule? = some ⟨head, body⟩ := by
  rw [RuleForm.rule?_eq_some_iff]
  cases action <;> exact ⟨rfl, rfl⟩

/-- A definition that is read gives the grammar its terminals and its rules. -/
theorem Grammar.eq_of_ofDefinition {ts : List Datum} {forms : List (RuleForm α)} {start : Datum} {g : Grammar α}
    (h : Grammar.ofDefinition ts forms start = .ok g) :
    Vocabulary.ofData ts = .ok g.vocabulary ∧ Rulebook.ofForms forms = .ok g.rulebook := by
  unfold ofDefinition at h
  split at h
  · cases h
  · obtain ⟨v, hv, h⟩ := bind_eq_ok_iff.mp h
    obtain ⟨rb, hrb, h⟩ := bind_eq_ok_iff.mp h
    obtain ⟨⟨start, hstart⟩, _, h⟩ := bind_eq_ok_iff.mp h
    dsimp only at h
    split at h
    · cases h
      exact ⟨hv, hrb⟩
    · cases h

namespace Builder

/-- A rule over symbols comes from a rule over names. -/
def Reads (b : Builder α) (r : NamedRule α) (rule : Rule) : Prop :=
  rule.head.name = r.head ∧ List.Forall₂ (fun name s => b.symbol name = .ok s) r.body rule.body

variable {b : Builder α} {name : String}

/-- A name stands for the terminal if it is declared, and for the non-terminal if not. -/
theorem symbol_eq_ok {s : Symbol} (h : b.symbol name = .ok s) :
    s.name = name ∧ (s.isTerminal = true ↔ name ∈ b.terminals) := by
  obtain ⟨hname, hkind⟩ := Symbol.name_of_ofName (mapError_eq_ok_iff.mp h)
  refine ⟨hname, ?_⟩
  split at hkind
  · rename_i hn
    cases s with
    | terminal t => exact iff_of_true rfl hn
    | nonterminal n => cases hkind
  · rename_i hn
    cases s with
    | terminal t => cases hkind
    | nonterminal n => exact iff_of_false Bool.false_ne_true hn

theorem reads_of_form {r : NamedRule α} {form : RuleForm α} (h : b.form r = .ok form) :
    ∃ rule, form.rule? = some rule ∧ b.Reads r rule := by
  obtain ⟨head, hhead, h⟩ := bind_eq_ok_iff.mp h
  obtain ⟨body, hbody, h⟩ := bind_eq_ok_iff.mp h
  cases h
  exact ⟨⟨head, body⟩, rule?_ofSymbols, NonTerminal.name_of_ofName (mapError_eq_ok_iff.mp hhead),
    forall₂_of_mapM hbody⟩

theorem reads_of_forms {rs : List (NamedRule α)} {forms : List (RuleForm α)}
    (h : List.Forall₂ (fun r form => b.form r = .ok form) rs forms) :
    List.Forall₂ b.Reads rs (forms.filterMap RuleForm.rule?) := by
  induction h with
  | nil => exact .nil
  | cons hform _ ih =>
    obtain ⟨rule, hrule, hreads⟩ := reads_of_form hform
    rw [List.filterMap_cons, hrule]
    exact .cons hreads ih

/-- **What a builder's grammar is made of**: its terminals have the declared names, and its rules are those over names,
one for one. -/
theorem reads_of_build {g : Grammar α} (h : b.build = .ok g) :
    (∀ name, (∃ t ∈ g.vocabulary.terminals, t.name = name) ↔ name ∈ b.terminals) ∧
      List.Forall₂ b.Reads b.rules g.rulebook.rules := by
  obtain ⟨forms, hforms, h⟩ := bind_eq_ok_iff.mp h
  obtain ⟨hv, hrb⟩ := Grammar.eq_of_ofDefinition h
  refine ⟨exists_terminal_of_ofData hv, ?_⟩
  rw [Rulebook.rules_of_ofForms hrb]
  exact reads_of_forms (forall₂_of_mapM hforms)

/-- The name of a head is not that of the end marker. -/
theorem head_name_ne_endMark {g : Grammar α} {p : Production α} (hp : p ∈ g.productions) :
    endMark.name ≠ p.head.name := by
  rcases Grammar.eq_augmented_or_mem_rules hp with rfl | hr
  · have h : endMark.name ≠ augmentedStart.name := by decide
    exact h
  · obtain ⟨e, he, heq⟩ := List.mem_map.mp hr
    intro hname
    have hhead : e.1.head = p.head := congrArg Rule.head heq
    exact (g.rulebook.unreserved e he).1 (.inl (by rw [hhead, ← hname]))

/-- In a grammar that was built, a head has the name of a terminal just if the name clashes. -/
theorem exists_terminal_iff_clashes {g : Grammar α} (h : b.build = .ok g) {p : Production α} (hp : p ∈ g.productions) :
    (∃ t ∈ g.terminals, t.name = p.head.name) ↔ b.Clashes p.head.name := by
  obtain ⟨hterminals, hrules⟩ := reads_of_build h
  constructor
  · rintro ⟨t, ht, hname⟩
    rcases List.mem_append.mp ht with ht | ht
    · have hdeclared := (hterminals p.head.name).mp ⟨t, ht, hname⟩
      rcases Grammar.eq_augmented_or_mem_rules hp with rfl | hr
      · exact absurd (.inr hname) (g.vocabulary.unreserved t ht)
      · obtain ⟨r, hr, hhead, -⟩ := exists_of_forall₂ hrules hr
        exact ⟨hdeclared, r, hr, hhead.symm⟩
    · rw [List.mem_singleton.mp ht] at hname
      exact absurd hname (head_name_ne_endMark hp)
  · rintro ⟨hdeclared, -⟩
    obtain ⟨t, ht, hname⟩ := (hterminals p.head.name).mpr hdeclared
    exact ⟨t, List.mem_append_left _ ht, hname⟩

/-- **Heads are kept apart from terminals but for names that are declared after they head a rule.** A name with rules
that was not declared too late stands for its non-terminal in every body; one that was stands for its terminal, so that
no rule leads to the rules under it. -/
theorem heads_apart_iff {names : List String} {ops : List (Operation α)} {g : Grammar α}
    (hnew : Builder.new names = .ok b) (hbuild : (b.run ops).build = .ok g) :
    (∀ p ∈ g.productions, (∃ t ∈ g.terminals, t.name = p.head.name) ↔ b.DeclaresHeadAmong ops p.head.name) ∧
      ∀ n ∈ g.nonterminals,
        (¬b.DeclaresHeadAmong ops n.name → ∀ p ∈ g.productions, ∀ s ∈ p.body, s.name = n.name → s = .nonterminal n) ∧
        (b.DeclaresHeadAmong ops n.name → ∀ r ∈ g.rulebook.rules, .nonterminal n ∉ r.body) := by
  have hclash (name : String) : (b.run ops).Clashes name ↔ b.DeclaresHeadAmong ops name := by
    rw [clashes_run_iff]
    refine or_iff_right ?_
    rintro ⟨-, r, hr, -⟩
    rw [rules_of_new hnew] at hr
    cases hr
  have hheads : ∀ p ∈ g.productions, (∃ t ∈ g.terminals, t.name = p.head.name) ↔
      b.DeclaresHeadAmong ops p.head.name :=
    fun p hp => (exists_terminal_iff_clashes hbuild hp).trans (hclash p.head.name)
  refine ⟨hheads, fun n hn => ⟨fun hno p hp s hs hname => ?_, fun hlate r hr hmem => ?_⟩⟩
  · cases s with
    | nonterminal m =>
      cases m
      cases n
      cases hname
      rfl
    | terminal t =>
      obtain ⟨q, hq, rfl⟩ := Grammar.exists_mem_tail_of_mem_nonterminals hn
      have ht := Grammar.mem_terminals_of_mem_body hp hs
      exact absurd ((hheads q (List.mem_of_mem_tail hq)).mp ⟨t, ht, hname⟩) hno
  · obtain ⟨-, hrules⟩ := reads_of_build hbuild
    obtain ⟨_, _, -, hbody⟩ := exists_of_forall₂ hrules hr
    obtain ⟨name, _, hname⟩ := exists_of_forall₂ hbody hmem
    obtain ⟨rfl, hterminal⟩ := symbol_eq_ok hname
    exact Bool.false_ne_true (hterminal.mpr ((hclash n.name).mpr hlate).1)

/-- Rules for lists of items, after which the name of a list is declared. -/
def late : List (Operation Unit) := [.add "list" ["a", "list"] none, .add "list" ["a"] none, .declare "list"]

/-- The builder that knows the items. -/
def items : Builder Unit := ⟨["a"], [], none⟩

/-- What is built from this has a rule and a terminal of the same name. -/
theorem build_late : ∃ g, (items.run late).build = .ok g ∧ ∃ p ∈ g.productions, ∃ t ∈ g.terminals,
    p.head ∈ g.nonterminals ∧ p.head.name = "list" ∧ t.name = p.head.name := by
  refine ⟨_, rfl, _, .tail _ (.head _), _, .tail _ (.head _), .head _, rfl, ?_⟩
  rfl

/-- The name of a list heads rules and is that of a terminal. -/
theorem heads_not_apart : Builder.new ["a"] = .ok items ∧ ¬∀ g, (items.run late).build = .ok g →
    ∀ p ∈ g.productions, ∀ t ∈ g.terminals, t.name ≠ p.head.name := by
  refine ⟨rfl, fun h => ?_⟩
  obtain ⟨g, hg, p, hp, t, ht, -, -, hname⟩ := build_late
  exact h g hg p hp t ht hname

/-- The last step is to blame, and no rule leads to the rules for lists. -/
theorem heads_apart_iff_late : ∃ g, Builder.new ["a"] = .ok items ∧ (items.run late).build = .ok g ∧
    items.DeclaresHeadAmong late "list" ∧
      ∃ n ∈ g.nonterminals, n.name = "list" ∧ ∀ r ∈ g.rulebook.rules, .nonterminal n ∉ r.body := by
  have hnew : Builder.new ["a"] = .ok items := rfl
  obtain ⟨g, hg, p, hp, t, ht, hn, hlist, hname⟩ := build_late
  obtain ⟨hheads, hnames⟩ := heads_apart_iff hnew hg
  have hdeclares : items.DeclaresHeadAmong late p.head.name := (hheads p hp).mp ⟨t, ht, hname⟩
  exact ⟨g, hnew, hg, hlist ▸ hdeclares, p.head, hn, hlist, (hnames p.head hn).2 hdeclares⟩

end Builder

end CanonicalLR
