import CanonicalLR.Proofs.Parse.Ascent
import CanonicalLR.Proofs.Parse.Completeness
import CanonicalLR.Proofs.Parse.Nearest

/-!
# Shifting binds `ELSE` to the nearest `IF`

The table of the grammar of conditional statements has conflicts. All of them are on `ELSE` and reject the reduction of
an `IF` without `ELSE` (`rejected_eq`). So the trees of nearest statements are not disputed, and the parser returns them
(`exists_parse?_tree`). Every text of a statement is that of a nearest one: shifting loses no sentence, and the tree is
the only one that binds every `ELSE` to the nearest unmatched `IF` (`parse?_binds_nearest`).
-/

namespace CanonicalLR.Conditionals

/-! ## Texts of statements -/

/-- The names are those of a text that `stmt` derives. -/
def IsDerivable (names : List String) : Prop :=
  ∃ w : List Terminal, w.map Terminal.name = names ∧ grammar.Derives [.nonterminal stmt] (w.map Symbol.terminal)

theorem spells_namedStream_iff {names : List String} {w : List Terminal} :
    Spells (namedStream names) w ↔ w.map Terminal.name = names := by
  have hstands : ∀ (name : String) (t : Terminal), StandsFor (some (.ofName name)) t ↔ name = t.name :=
    fun name t => by rw [StandsFor, Token.name?_eq_some_iff]; simp [Token.reading?_ofName]
  rw [Spells, namedStream, List.forall₂_map_left_iff, eq_comm, ← List.forall₂_eq_eq_eq, List.forall₂_map_right_iff]
  simp only [hstands]

theorem isDerivable_iff {names : List String} : IsDerivable names ↔ ∃ s : Statement, s.names = names := by
  constructor
  · rintro ⟨w, hw, hd⟩
    obtain ⟨tree, htree, hleaves⟩ := exists_isTree_of_derives hd (spells_namedStream_iff.mpr hw)
    obtain ⟨s, -, hs⟩ := exists_statement_of_leaves htree hleaves
    exact ⟨s, hs⟩
  · rintro ⟨s, rfl⟩
    obtain ⟨w, hw, -⟩ := s.isTree_tree.exists_rightDerivesBy
    have hd := s.isTree_tree.rightDerivesBy_postorder hw
    rw [s.leaves_tree] at hw
    exact ⟨w, spells_namedStream_iff.mp hw, hd.rightDerives.derives⟩

/-! ## Conflicts -/

set_option maxRecDepth 20000 in
/-- Shifting `ELSE` is preferred to the reduction of an `IF` without `ELSE`, and there are no other conflicts. -/
theorem rejected_eq : ∀ c ∈ (canonicalAutomaton grammar).table.conflicts,
    c.terminal = .symbol elseWord ∧ c.rejected = .completing ifRule.number := by
  decide +kernel

theorem not_rejects_of_number_ne {t : Terminal} {p : Production Unit} (h : p.number ≠ ifRule.number) :
    ¬(canonicalAutomaton grammar).table.Rejects t (.completing p.number) := by
  rintro ⟨c, hc, -, hr⟩
  have hcompleting := (rejected_eq c hc).2.symm.trans hr
  exact h (completing_inj hcompleting).symm

theorem not_rejects_of_ne {t : Terminal} {act : Action} (h : t ≠ elseWord) :
    ¬(canonicalAutomaton grammar).table.Rejects t act := by
  rintro ⟨c, hc, ht, -⟩
  rw [(rejected_eq c hc).1] at ht
  simp at ht
  exact h ht.symm

/-! ## Trees that are not disputed -/

section Undisputed

variable {rest : List (Option (Token String))}

/-- A node of another rule than that of an `IF` without `ELSE` is not disputed if its children are not. -/
theorem isUndisputed_node {p : Production Unit} {children : List (Tree Unit String)} (hp : p.number ≠ ifRule.number)
    (h : ForestIsUndisputed (canonicalAutomaton grammar).table children rest) :
    Tree.IsUndisputed (canonicalAutomaton grammar).table (.node p children) rest := by
  rw [Tree.IsUndisputed]
  exact ⟨h, fun t _ => not_rejects_of_number_ne hp⟩

theorem isUndisputed_word {t : Terminal} : (word t).IsUndisputed (canonicalAutomaton grammar).table rest := trivial

theorem isUndisputed_cond : cond.IsUndisputed (canonicalAutomaton grammar).table rest :=
  isUndisputed_node (by decide) ⟨isUndisputed_word, trivial⟩

/-- The tree of a nearest statement is not disputed, unless it ends in an `IF` without `ELSE` and `ELSE` is behind. -/
theorem Statement.IsNearest.isUndisputed {s : Statement} (h : s.IsNearest)
    (hr : s.endsOpen = true → (canonicalAutomaton grammar).table.classify rest.head?.join ≠ .ok (some elseWord)) :
    s.tree.IsUndisputed (canonicalAutomaton grammar).table rest := by
  induction s generalizing rest with
  | other => exact isUndisputed_node (by decide) ⟨isUndisputed_word, trivial⟩
  | ifThen s ih =>
    rw [tree, Tree.IsUndisputed]
    refine ⟨⟨isUndisputed_word, isUndisputed_cond, ih h fun _ => hr rfl, trivial⟩, fun t ht => ?_⟩
    apply not_rejects_of_ne
    rintro rfl
    exact hr rfl ht
  | ifElse s t ihs iht =>
    -- `ELSE` is behind the first statement, but this one does not end in an `IF` without `ELSE`
    obtain ⟨hs, hns, hnt⟩ := h
    have hleft :
        s.tree.IsUndisputed (canonicalAutomaton grammar).table (forestLeaves [word elseWord, t.tree] ++ rest) :=
      ihs hns (by simp [hs])
    exact isUndisputed_node (by decide)
      ⟨isUndisputed_word, isUndisputed_cond, hleft, isUndisputed_word, iht hnt hr, trivial⟩

end Undisputed

/-! ## What the parser returns -/

/-- The parser returns the trees of nearest statements. -/
theorem exists_parse?_tree {s : Statement} (h : s.IsNearest) : ∃ n,
    (canonicalAutomaton grammar).table.parse? n (namedStream s.names) = some (.accepted s.tree, s.names.length) := by
  have hu : s.tree.IsUndisputed (canonicalAutomaton grammar).table [] := h.isUndisputed fun _ hend => by
    simp [ParsingTable.classify, endMark, elseWord] at hend
  obtain ⟨n, hn⟩ := exists_parse?_of_isUndisputed s.isTree_tree hu
  rw [s.length_leaves_tree, s.leaves_tree] at hn
  exact ⟨n, hn⟩

theorem namedStream_eq (names : List String) : namedStream names = (names.map Token.ofName).map some := by
  rw [namedStream, List.map_map]
  rfl

/-- What the parser returns is the tree of a nearest statement. -/
theorem exists_isNearest_of_accepted {names : List String} {n k : Nat} {tree : Tree Unit String}
    (h : (canonicalAutomaton grammar).table.parse? n (namedStream names) = some (.accepted tree, k)) :
    ∃ s : Statement, s.IsNearest ∧ s.names = names ∧ tree = s.tree ∧ k = names.length := by
  have haccepted := h
  rw [namedStream_eq] at haccepted
  obtain ⟨htree, hleaves, -⟩ := isTree_of_accepted haccepted
  rw [← namedStream_eq] at hleaves
  obtain ⟨s, -, rfl⟩ := exists_statement_of_leaves htree hleaves
  obtain ⟨m, hm⟩ := exists_parse?_tree s.isNearest_nearest
  rw [s.names_nearest] at hm
  obtain ⟨htree', rfl⟩ := Prod.mk.inj (ParsingTable.parse?_unique h hm)
  exact ⟨s.nearest, s.isNearest_nearest, s.names_nearest, Outcome.accepted.inj htree', rfl⟩

/-- Two nearest statements with the same names are the same tree. -/
theorem tree_eq_of_names_eq {s s' : Statement} (h : s.IsNearest) (h' : s'.IsNearest) (hn : s'.names = s.names) :
    s'.tree = s.tree := by
  obtain ⟨n, hparse⟩ := exists_parse?_tree h
  obtain ⟨m, hparse'⟩ := exists_parse?_tree h'
  rw [hn] at hparse'
  exact Outcome.accepted.inj (Prod.mk.inj (ParsingTable.parse?_unique hparse' hparse)).1

/-- A body begins with a terminal, but for that of the augmented start. -/
def rank (n : NonTerminal) : Nat := if n = augmentedStart then 1 else 0

/-- The parser comes to an end on every stream of names, with a tree or with a syntax error. -/
theorem exists_outcome (names : List String) : ∃ n k,
    (∃ tree, (canonicalAutomaton grammar).table.parse? n (namedStream names) = some (.accepted tree, k)) ∨
      ∃ token state expected, (canonicalAutomaton grammar).table.parse? n (namedStream names) =
        some (.syntaxError token state expected, k) := by
  have halone : grammar.FallsAlone rank := by decide
  have hbehind : grammar.FallsBehind rank := by decide
  have hnamed : ∀ token ∈ names.map Token.ofName, token.name?.isSome := by
    intro token ht
    obtain ⟨name, -, rfl⟩ := List.mem_map.mp ht
    rfl
  rw [namedStream_eq]
  exact accepted_or_syntaxError (Grammar.hasNoCycle_of_fallsAlone halone)
    (Grammar.hasNoHiddenLeftRecursion_of_fallsBehind hbehind) hnamed

/-- **Preferring to shift binds every `ELSE` to the nearest `IF`.** The parser comes to an end on every stream of names.
It returns a tree just if `stmt` derives the names, and else it meets a syntax error. In the tree no node with `ELSE`
has a statement before the `ELSE` that ends in an `IF` without `ELSE`. It is the only tree of the names that binds every
`ELSE` to the nearest unmatched `IF`. -/
theorem parse?_binds_nearest (names : List String) :
    (∃ n r, (canonicalAutomaton grammar).table.parse? n (namedStream names) = some r) ∧
      (IsDerivable names ↔
        ∃ n k tree, (canonicalAutomaton grammar).table.parse? n (namedStream names) = some (.accepted tree, k)) ∧
      (¬IsDerivable names → ∃ n k token state expected,
        (canonicalAutomaton grammar).table.parse? n (namedStream names) = some (.syntaxError token state expected, k)) ∧
      ∀ n k tree, (canonicalAutomaton grammar).table.parse? n (namedStream names) = some (.accepted tree, k) →
        k = names.length ∧ IsTree grammar (.nonterminal stmt) tree ∧ tree.leaves = namedStream names ∧
          ClosesBranches tree ∧ BindsNearest names tree ∧
          ∀ tree' : Tree Unit String, IsTree grammar (.nonterminal stmt) tree' → tree'.leaves = namedStream names →
            BindsNearest names tree' → tree' = tree := by
  have hderives : IsDerivable names ↔
      ∃ n k tree, (canonicalAutomaton grammar).table.parse? n (namedStream names) = some (.accepted tree, k) := by
    rw [isDerivable_iff]
    constructor
    · rintro ⟨s, rfl⟩
      obtain ⟨n, hn⟩ := exists_parse?_tree s.isNearest_nearest
      rw [s.names_nearest] at hn
      exact ⟨n, _, _, hn⟩
    · rintro ⟨n, k, tree, h⟩
      obtain ⟨s, -, hs, -⟩ := exists_isNearest_of_accepted h
      exact ⟨s, hs⟩
  obtain ⟨n, k, hends⟩ := exists_outcome names
  refine ⟨?_, hderives, fun hnot => ?_, fun n k tree h => ?_⟩
  · rcases hends with ⟨tree, h⟩ | ⟨token, state, expected, h⟩
    · exact ⟨n, _, h⟩
    · exact ⟨n, _, h⟩
  · rcases hends with ⟨tree, h⟩ | ⟨token, state, expected, h⟩
    · exact absurd (hderives.mpr ⟨n, k, tree, h⟩) hnot
    · exact ⟨n, k, token, state, expected, h⟩
  · obtain ⟨s, hs, rfl, rfl, rfl⟩ := exists_isNearest_of_accepted h
    refine ⟨rfl, s.isTree_tree, s.leaves_tree, closesBranches_iff.mpr hs, bindsNearest_iff.mpr hs, ?_⟩
    intro tree' htree' hleaves' hbinds
    obtain ⟨s', rfl, hnames⟩ := exists_statement_of_leaves htree' hleaves'
    rw [← hnames] at hbinds
    exact tree_eq_of_names_eq hs (bindsNearest_iff.mp hbinds) hnames

set_option maxRecDepth 20000 in
/-- Of two `IF`s before an `ELSE` the second one gets it. -/
example : (canonicalAutomaton grammar).table.parse? 14
    (namedStream ["IF", "COND", "IF", "COND", "OTHER", "ELSE", "OTHER"]) =
      some (.accepted (Statement.ifThen (.ifElse .other .other)).tree, 7) := by rfl

end CanonicalLR.Conditionals
