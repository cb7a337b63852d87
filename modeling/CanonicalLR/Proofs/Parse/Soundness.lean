import CanonicalLR.Proofs.Parse.Run

/-!
# What a parser accepts is a tree of its input

Whatever conflicts there are, a tree that the parser of a canonical table returns is a tree of the start symbol, its
leaves are the tokens of the input, all of them and in order, and the run reduces by the productions of the tree in
post-order. Backwards these are a rightmost derivation of the input (`parse?_sound`).

What one move preserves (`Along.step_next`) is that the leaves on the stack with the rest of the input are the input,
and that the productions of the trees on the stack are those that the run has reduced by.
-/

namespace CanonicalLR

variable {α τ : Type} {g : Grammar α}

/-- The productions that a run reduces by, in the order of its moves. -/
def ParsingTable.reductions (t : ParsingTable α) : Nat → Config α τ → List (Production α)
  | 0, _ => []
  | moves + 1, c =>
    match t.step c with
    | .next c' => (t.reduction? c).toList ++ t.reductions moves c'
    | .stop _ => []

/-- The tokens of a parser, those on the stack before those to come. -/
def Config.tokens (c : Config α τ) : List (Option (Token τ)) := forestLeaves c.trees.reverse ++ c.input

/-- The productions of the trees on the stack. -/
def Config.productions (c : Config α τ) : List (Production α) := forestPostorder c.trees.reverse

/-! ## One move -/

theorem leaves_afterShift {c : Config α τ} (j : Int) :
    forestLeaves (c.afterShift j).trees.reverse = forestLeaves c.trees.reverse ++ [c.lookahead] := by
  simp only [Config.afterShift, List.reverse_cons, forestLeaves_append, forestLeaves, Tree.leaves, List.append_nil]

theorem tokens_afterShift {c : Config α τ} {token : Token τ} (h : c.lookahead = some token) (j : Int) :
    (c.afterShift j).tokens = c.tokens := by
  simp only [Config.tokens, leaves_afterShift, List.append_assoc, h]
  conv => rhs; rw [Config.input_eq_cons h]
  rfl

theorem productions_afterShift {c : Config α τ} (j : Int) : (c.afterShift j).productions = c.productions := by
  simp [Config.productions, Config.afterShift, forestPostorder_append, forestPostorder, Tree.postorder]

/-- The trees on the stack fall into those of a body and those below. -/
theorem reverse_trees (c : Config α τ) (k : Nat) :
    c.trees.reverse = (c.trees.drop k).reverse ++ (c.trees.take k).reverse := by
  rw [← List.reverse_append, List.take_append_drop]

theorem leaves_afterReduce {c : Config α τ} (p : Production α) (j i : Int) (is : List Int) :
    forestLeaves (c.afterReduce p j i is).trees.reverse = forestLeaves c.trees.reverse := by
  simp only [Config.afterReduce, reverse_trees c p.body.length, List.reverse_cons, forestLeaves_append, forestLeaves,
    Tree.leaves, List.append_nil]

theorem tokens_afterReduce {c : Config α τ} (p : Production α) (j i : Int) (is : List Int) :
    (c.afterReduce p j i is).tokens = c.tokens := by
  simp only [Config.tokens, leaves_afterReduce]
  rfl

theorem productions_afterReduce {c : Config α τ} (p : Production α) (j i : Int) (is : List Int) :
    (c.afterReduce p j i is).productions = c.productions ++ [p] := by
  simp only [Config.productions, Config.afterReduce, reverse_trees c p.body.length, List.reverse_cons,
    forestPostorder_append, forestPostorder, Tree.postorder, List.append_nil, List.append_assoc]

/-- **What one move preserves.** -/
theorem Along.step_next {c c' : Config α τ} {xs : List Symbol} (h : Along g c xs)
    (hs : (canonicalAutomaton g).table.step c = .next c') :
    (∃ ys, Along g c' ys) ∧ c'.tokens = c.tokens ∧ c'.input <:+ c.input ∧
      c'.productions = c.productions ++ ((canonicalAutomaton g).table.reduction? c).toList := by
  rcases h.next_cases hs with ⟨t, j, token, _, hl, hred, rfl, hc⟩ | ⟨p, _, ys, j, i, is, _, hred, rfl, hc⟩
  · refine ⟨⟨_, hc⟩, tokens_afterShift hl j, List.tail_suffix _, ?_⟩
    rw [productions_afterShift, hred]
    simp
  · refine ⟨⟨_, hc⟩, tokens_afterReduce p j i is, List.suffix_refl _, ?_⟩
    rw [productions_afterReduce, hred]
    rfl

/-- **What a chain of moves preserves.** -/
theorem Along.leads {c c' : Config α τ} {xs : List Symbol} (h : Along g c xs)
    (hl : (canonicalAutomaton g).table.Leads c c') : (∃ ys, Along g c' ys) ∧ c'.tokens = c.tokens := by
  induction hl with
  | refl => exact ⟨⟨xs, h⟩, rfl⟩
  | tail _ hs ih =>
    obtain ⟨⟨ys, hd⟩, htokens⟩ := ih
    obtain ⟨hnext, htokens', -⟩ := hd.step_next hs
    exact ⟨hnext, htokens'.trans htokens⟩

/-- What chains of moves lead to stands along a path, with the stream on its stack and before it. -/
theorem exists_along_of_leads {c : Config α τ} {stream : List (Option (Token τ))}
    (hl : (canonicalAutomaton g).table.Leads (.initial stream) c) :
    (∃ xs, Along g c xs) ∧ forestLeaves c.trees.reverse ++ c.input = stream := along_initial.leads hl

/-- What is accepted is the only tree on the stack, and is accepted where there is no token. -/
theorem Along.trees_of_accepted {c : Config α τ} {xs : List Symbol} (h : Along g c xs) {tree : Tree α τ}
    (hs : (canonicalAutomaton g).table.step c = .stop (.accepted tree)) :
    c.lookahead = none ∧ c.trees = [tree] ∧ IsTree g (.nonterminal g.start) tree := by
  rcases h.step_cases with ⟨t, j, _, _, hstep, _⟩ | ⟨p, _, ys, j, i, is, _, _, hstep, _⟩ |
    ⟨tree', hl, htrees, ht, hstep⟩ | ⟨o, hstep, ho⟩
  · rw [hs] at hstep
    cases hstep
  · rw [hs] at hstep
    cases hstep
  · rw [hs] at hstep
    cases hstep
    exact ⟨hl, htrees, ht⟩
  · rw [hs] at hstep
    cases hstep
    rcases ho with ho | ho | ho <;> cases ho

/-- A run is accepted at the end of its input, with a tree of all its tokens. -/
theorem Along.step_accepted {c : Config α τ} {xs : List Symbol} (h : Along g c xs) (hin : ∀ o ∈ c.input, o.isSome)
    {tree : Tree α τ} (hs : (canonicalAutomaton g).table.step c = .stop (.accepted tree)) :
    IsTree g (.nonterminal g.start) tree ∧ tree.leaves = c.tokens ∧ tree.postorder = c.productions ∧ c.input = [] := by
  obtain ⟨hl, htrees, ht⟩ := h.trees_of_accepted hs
  have hnil := Config.input_eq_nil hl hin
  simp [ht, hnil, htrees, Config.tokens, Config.productions, forestLeaves, forestPostorder]

/-! ## Runs -/

/-- The input of tokens has no gaps. -/
theorem isSome_of_mem_initial {tokens : List (Token τ)} :
    ∀ o ∈ (Config.initial (α := α) (tokens.map some)).input, o.isSome := by
  intro o ho
  obtain ⟨token, _, rfl⟩ := List.mem_map.mp ho
  rfl

/-- **What an accepted run has done.** -/
theorem Along.run_accepted {n : Nat} {c c' : Config α τ} {xs : List Symbol} (h : Along g c xs)
    (hin : ∀ o ∈ c.input, o.isSome) {tree : Tree α τ}
    (hr : (canonicalAutomaton g).table.run n c = some (.accepted tree, c')) :
    IsTree g (.nonterminal g.start) tree ∧ tree.leaves = c.tokens ∧
      tree.postorder = c.productions ++ (canonicalAutomaton g).table.reductions n c ∧ c'.input = [] := by
  induction n generalizing c xs with
  | zero => cases hr
  | succ n ih =>
    rw [ParsingTable.run] at hr
    rw [ParsingTable.reductions]
    cases hs : (canonicalAutomaton g).table.step c with
    | next d =>
      rw [hs] at hr
      obtain ⟨⟨ys, hd⟩, htokens, hsuffix, hprods⟩ := h.step_next hs
      obtain ⟨htree, hleaves, hpost, hend⟩ := ih hd (fun o ho => hin o (hsuffix.subset ho)) hr
      refine ⟨htree, hleaves.trans htokens, ?_, hend⟩
      rw [hpost, hprods, List.append_assoc]
    | stop o =>
      rw [hs] at hr
      cases hr
      obtain ⟨htree, hleaves, hpost, hend⟩ := h.step_accepted hin hs
      exact ⟨htree, hleaves, by rw [hpost, List.append_nil], hend⟩

/-- A tree that the parser returns is a tree of the start symbol with the tokens as its leaves, all of them taken. -/
theorem isTree_of_accepted {n k : Nat} {tokens : List (Token τ)} {tree : Tree α τ}
    (h : (canonicalAutomaton g).table.parse? n (tokens.map some) = some (.accepted tree, k)) :
    IsTree g (.nonterminal g.start) tree ∧ tree.leaves = tokens.map some ∧ k = tokens.length := by
  obtain ⟨⟨_, c⟩, hr, he⟩ := Option.map_eq_some_iff.mp h
  obtain ⟨rfl, rfl⟩ := Prod.mk.inj he
  obtain ⟨htree, hleaves, -, hend⟩ := along_initial.run_accepted isSome_of_mem_initial hr
  exact ⟨htree, hleaves, by simp [Config.taken, hend]⟩

/-- **What the parser returns is a tree of its input, and its run is a rightmost derivation backwards.** -/
theorem parse?_sound {n k : Nat} {tokens : List (Token τ)} {tree : Tree α τ}
    (h : (canonicalAutomaton g).table.parse? n (tokens.map some) = some (.accepted tree, k)) :
    IsTree g (.nonterminal g.start) tree ∧ tree.leaves = tokens.map some ∧ k = tokens.length ∧
      (canonicalAutomaton g).table.reductions n (.initial (tokens.map some)) = tree.postorder ∧
      ∃ w, Spells (tokens.map some) w ∧
        g.RightDerivesBy tree.postorder.reverse [.nonterminal g.start] (w.map Symbol.terminal) := by
  obtain ⟨⟨_, c⟩, hr, he⟩ := Option.map_eq_some_iff.mp h
  obtain ⟨rfl, rfl⟩ := Prod.mk.inj he
  obtain ⟨htree, hleaves, hpost, hend⟩ := along_initial.run_accepted isSome_of_mem_initial hr
  obtain ⟨w, hw, _⟩ := htree.exists_rightDerivesBy
  have hw' := htree.rightDerivesBy_postorder hw
  rw [hleaves] at hw
  refine ⟨htree, hleaves, ?_, hpost.symm, w, hw, hw'⟩
  simp [Config.taken, hend]

namespace Sums

/-- The sum of two sums. -/
def add (s t : Tree Unit String) : Tree Unit String :=
  .node ⟨⟨sum, [sum, plus, sum]⟩, 1, none⟩ [s, .leaf (some (.ofName "+")), t]

/-- The sum that is just a one. -/
def unit : Tree Unit String := .node ⟨⟨sum, [one]⟩, 2, none⟩ [.leaf (some (.ofName "1"))]

set_option maxRecDepth 20000 in
/-- A conflict is resolved in favour of the sign to come, and the tree is a tree of the input all the same. -/
theorem parse?_sums :
    (canonicalAutomaton grammar).table.conflicts ≠ [] ∧
      (canonicalAutomaton grammar).table.parse? 13 ((["1", "+", "1", "+", "1"].map Token.ofName).map some) =
        some (.accepted (add unit (add unit unit)), 5) ∧
      IsTree grammar (.nonterminal sum) (add unit (add unit unit)) := by
  have h : (canonicalAutomaton grammar).table.parse? 13 ((["1", "+", "1", "+", "1"].map Token.ofName).map some) =
      some (.accepted (add unit (add unit unit)), 5) := by rfl
  exact ⟨by decide +kernel, h, (parse?_sound h).1⟩

end Sums

end CanonicalLR
