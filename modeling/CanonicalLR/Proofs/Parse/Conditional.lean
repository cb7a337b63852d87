import CanonicalLR.Proofs.Parse.Reordering

/-!
# Conditional statements

The grammar `stmt → IF expr stmt | IF expr stmt ELSE stmt | OTHER`, `expr → COND` is ambiguous: an `ELSE` may belong to
several `IF`s. Its trees are those of `Statement` (`exists_statement`). In a nearest statement (`IsNearest`) no
statement between an `IF` and its `ELSE` ends in an `IF` without `ELSE`. The same is said of the nodes of a tree by
`ClosesBranches` (`closesBranches_iff`).

Every text of a statement is that of a nearest one: where the statement before an `ELSE` ends in an `IF` without `ELSE`,
the `ELSE` moves there (`Statement.names_nearest`, `Statement.isNearest_nearest`).
-/

namespace CanonicalLR.Conditionals

def ifWord : Terminal := ⟨"IF", by decide⟩

def elseWord : Terminal := ⟨"ELSE", by decide⟩

def otherWord : Terminal := ⟨"OTHER", by decide⟩

def condWord : Terminal := ⟨"COND", by decide⟩

def stmt : NonTerminal := ⟨"stmt", by decide⟩

def expr : NonTerminal := ⟨"expr", by decide⟩

def ifRule : Production Unit := ⟨⟨stmt, [ifWord, expr, stmt]⟩, 1, none⟩

def elseRule : Production Unit := ⟨⟨stmt, [ifWord, expr, stmt, elseWord, stmt]⟩, 2, none⟩

def otherRule : Production Unit := ⟨⟨stmt, [otherWord]⟩, 3, none⟩

def condRule : Production Unit := ⟨⟨expr, [condWord]⟩, 4, none⟩

/-- The rules `stmt → IF expr stmt`, `stmt → IF expr stmt ELSE stmt`, `stmt → OTHER` and `expr → COND`. -/
def grammar : Grammar Unit :=
  .make ⟨[ifWord, elseWord, otherWord, condWord], by decide, by decide⟩
    ⟨[(ifRule.toRule, none), (elseRule.toRule, none), (otherRule.toRule, none), (condRule.toRule, none)],
      by decide, by decide⟩
    stmt (by decide) (by decide)

theorem mem_rules_iff {p : Production Unit} :
    p ∈ grammar.productions.tail ↔ p = ifRule ∨ p = elseRule ∨ p = otherRule ∨ p = condRule := by
  have hrules : grammar.productions.tail = [ifRule, elseRule, otherRule, condRule] := rfl
  simp [hrules]

/-! ## Statements -/

/-- A statement. Conditions are all alike. -/
inductive Statement where
  | other
  /-- An `IF` without `ELSE`. -/
  | ifThen (s : Statement)
  /-- An `IF` with its `ELSE`. -/
  | ifElse (s t : Statement)

/-- The tree of a token that is just the name of a terminal. -/
def word (t : Terminal) : Tree Unit String := .leaf (some (.ofName t.name))

/-- The tree of a condition. -/
def cond : Tree Unit String := .node condRule [word condWord]

namespace Statement

/-- The names that a statement is written with. -/
def names : Statement → List String
  | other => [otherWord.name]
  | ifThen s => ifWord.name :: condWord.name :: s.names
  | ifElse s t => ifWord.name :: condWord.name :: (s.names ++ elseWord.name :: t.names)

/-- The tree of a statement. -/
def tree : Statement → Tree Unit String
  | other => .node otherRule [word otherWord]
  | ifThen s => .node ifRule [word ifWord, cond, s.tree]
  | ifElse s t => .node elseRule [word ifWord, cond, s.tree, word elseWord, t.tree]

theorem leaves_tree (s : Statement) : s.tree.leaves = namedStream s.names := by
  induction s with
  | other => rfl
  | ifThen s ih => simp [tree, Tree.leaves, forestLeaves, word, cond, ih, namedStream, names]
  | ifElse s t ihs iht => simp [tree, Tree.leaves, forestLeaves, word, cond, ihs, iht, namedStream, names]

theorem length_leaves_tree (s : Statement) : s.tree.leaves.length = s.names.length := by
  rw [leaves_tree, namedStream, List.length_map]

theorem isTree_word (t : Terminal) : IsTree grammar (.terminal t) (word t) := by
  rw [word, IsTree]
  exact ⟨t, rfl, rfl⟩

theorem isTree_cond : IsTree grammar (.nonterminal expr) cond := by
  rw [cond, IsTree]
  exact ⟨mem_rules_iff.mpr (by simp), rfl, areTrees_cons.mpr ⟨isTree_word _, areTrees_nil.mpr rfl⟩⟩

theorem isTree_tree (s : Statement) : IsTree grammar (.nonterminal stmt) s.tree := by
  induction s with
  | other =>
    rw [tree, IsTree]
    exact ⟨mem_rules_iff.mpr (by simp), rfl, areTrees_cons.mpr ⟨isTree_word _, areTrees_nil.mpr rfl⟩⟩
  | ifThen s ih =>
    rw [tree, IsTree]
    refine ⟨mem_rules_iff.mpr (by simp), rfl, ?_⟩
    simp only [ifRule, areTrees_cons, areTrees_nil, and_true]
    exact ⟨isTree_word _, isTree_cond, ih⟩
  | ifElse s t ihs iht =>
    rw [tree, IsTree]
    refine ⟨mem_rules_iff.mpr (by simp), rfl, ?_⟩
    simp only [elseRule, areTrees_cons, areTrees_nil, and_true]
    exact ⟨isTree_word _, isTree_cond, ihs, isTree_word _, iht⟩

end Statement

/-! ## Trees are those of statements -/

/-- All tokens are just names. -/
def AreNames (tokens : List (Option (Token String))) : Prop := ∀ o ∈ tokens, ∃ name, o = some (.ofName name)

theorem areNames_namedStream (names : List String) : AreNames (namedStream names) := by
  intro o ho
  obtain ⟨name, _, rfl⟩ := List.mem_map.mp ho
  exact ⟨name, rfl⟩

theorem areNames_append {us vs : List (Option (Token String))} : AreNames (us ++ vs) ↔ AreNames us ∧ AreNames vs :=
  List.forall_mem_append

theorem areNames_forest {t : Tree Unit String} {ts : List (Tree Unit String)} :
    AreNames (forestLeaves (t :: ts)) ↔ AreNames t.leaves ∧ AreNames (forestLeaves ts) := by
  rw [forestLeaves, areNames_append]

/-- A tree of a terminal in a tree over names is the word of the terminal. -/
theorem eq_word {t : Terminal} {tree : Tree Unit String} (h : IsTree grammar (.terminal t) tree)
    (hn : AreNames tree.leaves) : tree = word t := by
  obtain ⟨token, rfl, ht⟩ := h.exists_leaf
  obtain ⟨name, rfl⟩ := hn token List.mem_cons_self
  obtain rfl : name = t.name := Option.some.inj ht
  rfl

theorem eq_cond {tree : Tree Unit String} (h : IsTree grammar (.nonterminal expr) tree) (hn : AreNames tree.leaves) :
    tree = cond := by
  obtain ⟨p, children, rfl, hp, he, h⟩ := h.exists_node
  rcases mem_rules_iff.mp hp with rfl | rfl | rfl | rfl
  · exact absurd he (by decide)
  · exact absurd he (by decide)
  · exact absurd he (by decide)
  · simp only [condRule, areTrees_cons_left, areTrees_nil_left] at h
    obtain ⟨c, _, rfl, hc, rfl⟩ := h
    rw [eq_word hc (areNames_forest.mp hn).1]
    rfl

/-- **The trees over names are those of statements.** -/
theorem exists_statement : ∀ {tree : Tree Unit String}, IsTree grammar (.nonterminal stmt) tree →
    AreNames tree.leaves → ∃ s : Statement, tree = s.tree
  | .leaf token, h, _ => by
    rw [IsTree] at h
    obtain ⟨_, ht, _⟩ := h
    cases ht
  | .node p children, h, hn => by
    rw [IsTree] at h
    obtain ⟨hp, he, h⟩ := h
    rw [Tree.leaves] at hn
    rcases mem_rules_iff.mp hp with rfl | rfl | rfl | rfl
    · simp only [ifRule, areTrees_cons_left, areTrees_nil_left] at h
      obtain ⟨a, _, rfl, ha, b, _, rfl, hb, c, _, rfl, hc, rfl⟩ := h
      simp only [areNames_forest] at hn
      obtain ⟨hna, hnb, hnc, -⟩ := hn
      obtain ⟨s, rfl⟩ := exists_statement hc hnc
      rw [eq_word ha hna, eq_cond hb hnb]
      exact ⟨.ifThen s, rfl⟩
    · simp only [elseRule, areTrees_cons_left, areTrees_nil_left] at h
      obtain ⟨a, _, rfl, ha, b, _, rfl, hb, c, _, rfl, hc, d, _, rfl, hd, e, _, rfl, he', rfl⟩ := h
      simp only [areNames_forest] at hn
      obtain ⟨hna, hnb, hnc, hnd, hne, -⟩ := hn
      obtain ⟨s, rfl⟩ := exists_statement hc hnc
      obtain ⟨t, rfl⟩ := exists_statement he' hne
      rw [eq_word ha hna, eq_cond hb hnb, eq_word hd hnd]
      exact ⟨.ifElse s t, rfl⟩
    · simp only [otherRule, areTrees_cons_left, areTrees_nil_left] at h
      obtain ⟨a, _, rfl, ha, rfl⟩ := h
      rw [eq_word ha (areNames_forest.mp hn).1]
      exact ⟨.other, rfl⟩
    · exact absurd he (by decide)

theorem exists_statement_of_leaves {tree : Tree Unit String} {names : List String}
    (h : IsTree grammar (.nonterminal stmt) tree) (hl : tree.leaves = namedStream names) :
    ∃ s : Statement, tree = s.tree ∧ s.names = names := by
  obtain ⟨s, rfl⟩ := exists_statement h (hl ▸ areNames_namedStream names)
  rw [s.leaves_tree] at hl
  have hinj : Function.Injective fun name => some (Token.ofName name) :=
    fun _ _ hab => congrArg Token.value (Option.some.inj hab)
  exact ⟨s, rfl, hinj.list_map hl⟩

/-! ## Statements that end in an `IF` without `ELSE` -/

namespace Statement

/-- Whether a statement ends in an `IF` without `ELSE`. -/
def endsOpen : Statement → Bool
  | other => false
  | ifThen _ => true
  | ifElse _ t => t.endsOpen

/-- No statement between an `IF` and its `ELSE` ends in an `IF` without `ELSE`. -/
def IsNearest : Statement → Prop
  | other => True
  | ifThen s => s.IsNearest
  | ifElse s t => s.endsOpen = false ∧ s.IsNearest ∧ t.IsNearest

end Statement

/-! ## Nodes with `ELSE` -/

/-- A tree is a part of another one. -/
inductive IsPart : Tree Unit String → Tree Unit String → Prop
  | refl (tree : Tree Unit String) : IsPart tree tree
  | child {p : Production Unit} {children : List (Tree Unit String)} {part tree : Tree Unit String} :
      tree ∈ children → IsPart part tree → IsPart part (.node p children)

/-- Last children lead to an `IF` without `ELSE`. -/
inductive EndsOpen : Tree Unit String → Prop
  | here {children : List (Tree Unit String)} : EndsOpen (.node ifRule children)
  | last {p : Production Unit} {children : List (Tree Unit String)} {tree : Tree Unit String} :
      children.getLast? = some tree → EndsOpen tree → EndsOpen (.node p children)

/-- No node with `ELSE` has a statement before the `ELSE` that ends in an `IF` without `ELSE`. -/
def ClosesBranches (tree : Tree Unit String) : Prop :=
  ∀ children, IsPart (.node elseRule children) tree → ∀ branch, children[2]? = some branch → ¬EndsOpen branch

theorem isPart_node_iff {p : Production Unit} {children : List (Tree Unit String)} {part : Tree Unit String} :
    IsPart part (.node p children) ↔ part = .node p children ∨ ∃ tree ∈ children, IsPart part tree := by
  constructor
  · rintro (_ | ⟨hc, hp⟩)
    · exact .inl rfl
    · exact .inr ⟨_, hc, hp⟩
  · rintro (rfl | ⟨tree, hc, hp⟩)
    · exact .refl _
    · exact .child hc hp

theorem not_isPart_word {t : Terminal} {p : Production Unit} {children : List (Tree Unit String)} :
    ¬IsPart (.node p children) (word t) := by
  rintro ⟨⟩

theorem endsOpen_node_iff {p : Production Unit} {children : List (Tree Unit String)} :
    EndsOpen (.node p children) ↔ p = ifRule ∨ ∃ tree, children.getLast? = some tree ∧ EndsOpen tree := by
  constructor
  · rintro (_ | ⟨hl, ho⟩)
    · exact .inl rfl
    · exact .inr ⟨_, hl, ho⟩
  · rintro (rfl | ⟨tree, hl, ho⟩)
    · exact .here
    · exact .last hl ho

theorem not_endsOpen_word {t : Terminal} : ¬EndsOpen (word t) := by
  rintro ⟨⟩

theorem endsOpen_tree {s : Statement} : EndsOpen s.tree ↔ s.endsOpen = true := by
  induction s with
  | other => simp [Statement.tree, Statement.endsOpen, endsOpen_node_iff, not_endsOpen_word, otherRule, ifRule]
  | ifThen s _ => simp [Statement.tree, Statement.endsOpen, endsOpen_node_iff]
  | ifElse s t _ iht => simp [Statement.tree, Statement.endsOpen, endsOpen_node_iff, iht, elseRule, ifRule]

section Parts

variable {s t : Statement} {children : List (Tree Unit String)}

theorem not_isPart_cond : ¬IsPart (.node elseRule children) cond := by
  simp [cond, isPart_node_iff, not_isPart_word, elseRule, condRule]

theorem not_isPart_other : ¬IsPart (.node elseRule children) Statement.other.tree := by
  simp [Statement.tree, isPart_node_iff, not_isPart_word, elseRule, otherRule]

theorem isPart_ifThen_iff :
    IsPart (.node elseRule children) (Statement.ifThen s).tree ↔ IsPart (.node elseRule children) s.tree := by
  have hne : elseRule ≠ ifRule := by simp [elseRule, ifRule]
  simp [Statement.tree, isPart_node_iff, not_isPart_word, not_isPart_cond, hne]

theorem isPart_ifElse_iff : IsPart (.node elseRule children) (Statement.ifElse s t).tree ↔
    children = [word ifWord, cond, s.tree, word elseWord, t.tree] ∨ IsPart (.node elseRule children) s.tree ∨
      IsPart (.node elseRule children) t.tree := by
  simp [Statement.tree, isPart_node_iff, not_isPart_word, not_isPart_cond]

end Parts

/-- **The trees whose nodes close the branches before `ELSE` are those of nearest statements.** -/
theorem closesBranches_iff {s : Statement} : ClosesBranches s.tree ↔ s.IsNearest := by
  induction s with
  | other => exact ⟨fun _ => trivial, fun _ children hp => absurd hp not_isPart_other⟩
  | ifThen s ih =>
    rw [Statement.IsNearest, ← ih]
    simp only [ClosesBranches, isPart_ifThen_iff]
  | ifElse s t ihs iht =>
    rw [Statement.IsNearest, ← ihs, ← iht, ← Bool.not_eq_true, ← endsOpen_tree]
    constructor
    · intro h
      refine ⟨h _ (isPart_ifElse_iff.mpr (.inl rfl)) _ rfl, fun children hp => ?_, fun children hp => ?_⟩
      · exact h children (isPart_ifElse_iff.mpr (.inr (.inl hp)))
      · exact h children (isPart_ifElse_iff.mpr (.inr (.inr hp)))
    · rintro ⟨hs, hps, hpt⟩ children hp branch hb
      rcases isPart_ifElse_iff.mp hp with rfl | hp | hp
      · obtain rfl : s.tree = branch := Option.some.inj hb
        exact hs
      · exact hps children hp branch hb
      · exact hpt children hp branch hb

/-! ## Statements with the same names -/

namespace Statement

/-- Gives an `ELSE` with a statement to the last `IF` without `ELSE` at the end of a statement. -/
def attach : Statement → Statement → Statement
  | other, _ => other
  | ifThen s, t => if s.endsOpen then ifThen (s.attach t) else ifElse s t
  | ifElse s u, t => ifElse s (u.attach t)

theorem names_attach {s t : Statement} (h : s.endsOpen = true) :
    (s.attach t).names = s.names ++ elseWord.name :: t.names := by
  induction s with
  | other => cases h
  | ifThen s ih =>
    rw [attach]
    split
    · rename_i hs
      simp [names, ih hs]
    · rfl
  | ifElse s u _ ih => simp [attach, names, ih h]

theorem IsNearest.attach {s t : Statement} (hs : s.IsNearest) (ht : t.IsNearest) : (s.attach t).IsNearest := by
  induction s with
  | other => trivial
  | ifThen s ih =>
    rw [Statement.attach]
    split
    · exact ih hs
    · rename_i he
      exact ⟨eq_false_of_ne_true he, hs, ht⟩
  | ifElse s u _ ih => exact ⟨hs.1, hs.2.1, ih hs.2.2⟩

/-- The statement with the same names in which every `ELSE` belongs to the nearest unmatched `IF`. -/
def nearest : Statement → Statement
  | other => other
  | ifThen s => ifThen s.nearest
  | ifElse s t => (ifThen s.nearest).attach t.nearest

theorem names_nearest (s : Statement) : s.nearest.names = s.names := by
  induction s with
  | other => rfl
  | ifThen s ih => simp only [nearest, names, ih]
  | ifElse s t ihs iht =>
    rw [nearest, names_attach rfl]
    simp [names, ihs, iht]

theorem isNearest_nearest (s : Statement) : s.nearest.IsNearest := by
  induction s with
  | other => trivial
  | ifThen s ih => exact ih
  | ifElse s t ihs iht =>
    have hs : (ifThen s.nearest).IsNearest := ihs
    exact hs.attach iht

end Statement

end CanonicalLR.Conditionals
