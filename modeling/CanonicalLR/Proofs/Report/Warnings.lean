import CanonicalLR.Report.Generator
import CanonicalLR.Proofs.Grammar.Exactness
import CanonicalLR.Proofs.Table.Canonical

/-!
# What warnings say about a grammar

Each part of the reports has one level, so that the messages of a level are those of some parts as a whole. The warnings
stand in the order of the parts: unused terminals, unreachable and underivable non-terminals, numbers of conflicts
(`messages_warning`). A part is empty just if there is nothing to say, and what there is to say is told by the rules and
the derivations of the grammar.

So a generator is silent just if the grammar has no useless symbol and each number of conflicts is zero or the expected
one (`warns_generate`).
-/

namespace CanonicalLR

variable {α ε φ : Type}

/-! ## Grammars without useless symbols -/

namespace Grammar

variable {g : Grammar α} {t : Terminal}

/-- Some rule of the grammar has the terminal in its body. -/
def IsUsed (g : Grammar α) (t : Terminal) : Prop := ∃ r ∈ g.rulebook.rules, .terminal t ∈ r.body

/-- No symbol of the grammar is useless: a rule uses each declared terminal, and each non-terminal is in a text that the
start symbol derives and derives a text of terminals itself. -/
structure IsClean (g : Grammar α) : Prop where
  used : ∀ t ∈ g.vocabulary.terminals, g.IsUsed t
  reaches : ∀ n ∈ g.nonterminals, ∃ u, g.Derives [.nonterminal g.start] u ∧ .nonterminal n ∈ u
  derives : ∀ n ∈ g.nonterminals, ∃ w : List Terminal, g.Derives [.nonterminal n] (w.map Symbol.terminal)

theorem mem_bodySymbols_iff_isUsed : .terminal t ∈ bodySymbols g.productions ↔ g.IsUsed t := by
  have hstart : Symbol.terminal t ∉ g.augmented.body := by simp [augmented]
  rw [bodySymbols, productions_eq_cons, List.flatMap_cons, List.mem_append, or_iff_right hstart, List.mem_flatMap,
    IsUsed, ← tail_productions_map]
  simp only [List.mem_map, exists_exists_and_eq_and]

theorem mem_unusedTerminals_iff : t ∈ g.unusedTerminals ↔ t ∈ g.vocabulary.terminals ∧ ¬g.IsUsed t := by
  rw [unusedTerminals, List.mem_filter, decide_eq_true_iff, mem_bodySymbols_iff_isUsed]

theorem Lists.eq_nil_iff {ns : List NonTerminal} {P : NonTerminal → Prop} (h : g.Lists ns P) :
    ns = [] ↔ ∀ n ∈ g.nonterminals, ¬P n := by
  simp only [List.eq_nil_iff_forall_not_mem, h.mem_iff, not_and]

/-- No symbol is useless just if none is listed as such. -/
theorem isClean_iff : g.IsClean ↔ g.unusedTerminals = [] ∧ g.unreachable = [] ∧ g.underivable = [] := by
  have hunused : g.unusedTerminals = [] ↔ ∀ t ∈ g.vocabulary.terminals, g.IsUsed t := by
    simp only [List.eq_nil_iff_forall_not_mem, mem_unusedTerminals_iff, not_and, not_not]
  rw [hunused, g.listsUseless.unreachable.eq_nil_iff, g.listsUseless.underivable.eq_nil_iff]
  push Not
  exact ⟨fun h => ⟨h.used, h.reaches, h.derives⟩, fun ⟨hused, hreaches, hderives⟩ => ⟨hused, hreaches, hderives⟩⟩

end Grammar

/-! ## The levels of reports -/

/-- The messages of a level, in order. -/
def Generated.messages (r : Generated α ε φ) (level : Level) : List Diagnostic :=
  r.diagnostics.filter fun d => d.level = level

/-- The number of conflicts of a kind is zero or the expected one. -/
def Settings.Tolerates (s : Settings) (kind : ConflictKind) (count : Nat) : Prop :=
  count = 0 ∨ (s.expected kind).number? = some (count : Int)

instance (s : Settings) (kind : ConflictKind) (count : Nat) : Decidable (s.Tolerates kind count) :=
  inferInstanceAs (Decidable (_ ∨ _))

section Levels

variable {openFile : Value → Except ε φ} {s : Settings} {g : Grammar α} {t : ParsingTable α} {ds : List Diagnostic}
  {level level' : Level}

/-- Of messages of one level all or none have a given level. -/
theorem filter_level (h : ∀ d ∈ ds, d.level = level) :
    ds.filter (fun d => d.level = level') = if level = level' then ds else [] := by
  split
  · rename_i heq
    exact List.filter_eq_self.mpr fun d hd => decide_eq_true ((h d hd).trans heq)
  · rename_i hne
    exact List.filter_eq_nil_iff.mpr fun d hd hlevel => hne ((h d hd).symm.trans (of_decide_eq_true hlevel))

theorem level_grammarReport : ∀ d ∈ grammarReport g, d.level = .warning := by
  intro d hd
  simp only [grammarReport, List.mem_append, List.mem_map] at hd
  rcases hd with (hd | ⟨n, -, rfl⟩) | ⟨n, -, rfl⟩
  · split at hd
    · cases hd
    · rcases List.mem_pair.mp hd with rfl | rfl <;> rfl
  · rfl
  · rfl

/-- The numbers that are reported are those that are not tolerated. -/
theorem flatMap_countReport {kinds : List ConflictKind} : kinds.flatMap (countReport s t) =
    (kinds.filter fun kind => ¬s.Tolerates kind (t.conflictsOf kind).length).map fun kind =>
      .conflictCount kind (t.conflictsOf kind).length := by
  induction kinds with
  | nil => rfl
  | cons kind kinds ih =>
    have hcount : countReport s t kind = if s.Tolerates kind (t.conflictsOf kind).length then [] else
        [.conflictCount kind (t.conflictsOf kind).length] :=
      if_congr (or_congr_right decide_eq_true_iff) rfl rfl
    rw [List.flatMap_cons, hcount, ih]
    by_cases htolerates : s.Tolerates kind (t.conflictsOf kind).length
    · rw [if_pos htolerates, List.filter_cons_of_neg (by simpa using htolerates), List.nil_append]
    · rw [if_neg htolerates, List.filter_cons_of_pos (by simpa using htolerates)]
      rfl

theorem level_countReport : ∀ d ∈ ConflictKind.all.flatMap (countReport s t), d.level = .warning := by
  intro d hd
  rw [flatMap_countReport] at hd
  obtain ⟨kind, -, rfl⟩ := List.mem_map.mp hd
  rfl

theorem level_conflict : ∀ d ∈ t.conflicts.map Diagnostic.conflict, d.level = .debug := by
  intro d hd
  obtain ⟨c, -, rfl⟩ := List.mem_map.mp hd
  rfl

theorem level_listingReport {listing : Except ε (Option (φ × String))} :
    ∀ d ∈ listingReport s listing, d.level = .info := by
  intro d hd
  unfold listingReport at hd
  split at hd
  · rw [List.mem_singleton.mp hd]
    rfl
  · cases hd

/-- The messages of a level are those of the parts that have it. -/
theorem messages_generate : (generate openFile s g).messages level =
    (if .warning = level then grammarReport g else []) ++
    (if .debug = level then [.stateCount (canonicalAutomaton g).size] else []) ++
    ((if .warning = level then ConflictKind.all.flatMap (countReport s (canonicalAutomaton g).table) else []) ++
      if .debug = level then (canonicalAutomaton g).table.conflicts.map .conflict else []) ++
    if .info = level then listingReport s (generate openFile s g).listing else [] := by
  have hstates : ∀ d ∈ [Diagnostic.stateCount (canonicalAutomaton g).size], d.level = .debug :=
    List.forall_mem_singleton.mpr rfl
  simp only [Generated.messages, generate, conflictReport, List.filter_append]
  rw [filter_level level_grammarReport, filter_level hstates, filter_level level_countReport,
    filter_level level_conflict, filter_level level_listingReport]

end Levels

/-- **The warnings are those on the grammar and then those on the numbers of conflicts.** -/
theorem messages_warning (openFile : Value → Except ε φ) (s : Settings) (g : Grammar α) :
    (generate openFile s g).messages .warning =
      grammarReport g ++ ConflictKind.all.flatMap (countReport s (canonicalAutomaton g).table) := by
  rw [messages_generate]
  simp

/-- **The debug messages are the number of states and then the conflicts.** -/
theorem messages_debug (openFile : Value → Except ε φ) (s : Settings) (g : Grammar α) :
    (generate openFile s g).messages .debug =
      .stateCount (canonicalAutomaton g).size :: (canonicalAutomaton g).table.conflicts.map .conflict := by
  rw [messages_generate]
  simp

/-! ## Silence -/

theorem grammarReport_eq_nil_iff {g : Grammar α} : grammarReport g = [] ↔ g.IsClean := by
  rw [grammarReport, Grammar.isClean_iff, List.append_eq_nil_iff, List.append_eq_nil_iff, List.map_eq_nil_iff,
    List.map_eq_nil_iff, and_assoc, ite_eq_left_iff]
  simp

theorem ConflictKind.mem_all : ∀ kind : ConflictKind, kind ∈ ConflictKind.all
  | .shiftReduce => List.mem_cons_self
  | .reduceReduce => List.mem_cons_of_mem _ List.mem_cons_self

theorem countReport_eq_nil_iff {s : Settings} {t : ParsingTable α} :
    ConflictKind.all.flatMap (countReport s t) = [] ↔ ∀ kind, s.Tolerates kind (t.conflictsOf kind).length := by
  rw [flatMap_countReport, List.map_eq_nil_iff, List.filter_eq_nil_iff]
  simp only [decide_eq_true_eq, not_not]
  exact ⟨fun h kind => h kind kind.mem_all, fun h kind _ => h kind⟩

/-- What the messages of a generator say. -/
structure Warns (s : Settings) (g : Grammar α) (r : Generated α ε φ) : Prop where
  /-- The table is that of the canonical automaton. -/
  compile : (canonicalAutomaton g).compile = .ok r.table
  /-- No warning is given just if the grammar has no useless symbol and the numbers of conflicts are tolerated. -/
  silent_iff : r.messages .warning = [] ↔
    g.IsClean ∧ ∀ kind, s.Tolerates kind (r.table.conflictsOf kind).length
  /-- There are two warnings on unused terminals, if any, one on each unreachable and on each underivable non-terminal,
  and one on each number of conflicts that is not tolerated. -/
  warnings : r.messages .warning =
    (if g.unusedTerminals = [] then [] else
      [.unusedTokens g.unusedTerminals, .unusedCount g.unusedTerminals.length]) ++
    g.unreachable.map .unreachable ++ g.underivable.map .underivable ++
    ([.shiftReduce, .reduceReduce].filter fun kind => ¬s.Tolerates kind (r.table.conflictsOf kind).length).map
      fun kind => .conflictCount kind (r.table.conflictsOf kind).length
  /-- The unused terminals are the declared ones that are in no body, in order of declaration. -/
  unused : g.unusedTerminals.Sublist g.vocabulary.terminals ∧
    ∀ t, t ∈ g.unusedTerminals ↔ t ∈ g.vocabulary.terminals ∧ ¬g.IsUsed t
  /-- The unreachable non-terminals are in no text that the start symbol derives. -/
  unreachable : g.Lists g.unreachable fun n => ∀ u, g.Derives [.nonterminal g.start] u → .nonterminal n ∉ u
  /-- The underivable non-terminals derive no text of terminals. -/
  underivable : g.Lists g.underivable fun n =>
    ∀ w : List Terminal, ¬g.Derives [.nonterminal n] (w.map Symbol.terminal)
  /-- After the number of states there is a debug message for each conflict, in their order. -/
  debug : r.messages .debug = .stateCount r.automaton.size :: r.table.conflicts.map .conflict

/-- **A generator warns of all that may be wrong with a grammar, and of nothing else**, whatever becomes of
its listing. -/
theorem warns_generate (openFile : Value → Except ε φ) (s : Settings) (g : Grammar α) :
    Warns s g (generate openFile s g) := by
  have hwarnings := messages_warning openFile s g
  rw [grammarReport, flatMap_countReport] at hwarnings
  simp only [List.isEmpty_iff] at hwarnings
  exact {
    compile := compile_canonicalAutomaton
    silent_iff := by
      rw [messages_warning, List.append_eq_nil_iff, grammarReport_eq_nil_iff, countReport_eq_nil_iff]
      rfl
    warnings := hwarnings
    unused := ⟨List.filter_sublist, fun _ => Grammar.mem_unusedTerminals_iff⟩
    unreachable := g.listsUseless.unreachable
    underivable := g.listsUseless.underivable
    debug := messages_debug openFile s g }

end CanonicalLR
