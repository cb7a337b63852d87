import CanonicalLR.Proofs.Parse.Soundness

/-!
# The parser is never stuck

What a parser relies on for its next move is a state for every tree and one more, each of them a state of the table, on
its stack the trees of the body by which it reduces, a target for the state below them, and a single tree of the start
symbol when it accepts (`ParsingTable.IsReady`). A parser that has all this moves on, accepts or reports a syntax error
(`ParsingTable.IsReady.step_cases`).

On the table of the canonical automaton all parsers that stand along a path have it (`Along.isReady`), conflicts or not,
as long as the lookahead has a name. Hence a run on tokens with names ends with a tree of the start symbol or with a
syntax error, if it ends at all (`isReady_of_leads`).
-/

namespace CanonicalLR

variable {α τ : Type} {g : Grammar α} {c : Config α τ} {xs : List Symbol}

/-- What a parser relies on for its next move. -/
structure ParsingTable.IsReady (t : ParsingTable α) (c : Config α τ) : Prop where
  /-- There is one state more than trees. -/
  length_states : (c.state :: c.below).length = c.trees.length + 1
  /-- Every state on the stack is a state of the table. -/
  states_lt : ∀ i ∈ c.state :: c.below, 0 ≤ i ∧ i < t.stateCount
  /-- The lookahead can be looked up. -/
  lookup : ∃ act, t.actionOn c.state c.lookahead = .ok act
  /-- A reduction finds the trees of a body on the stack, and a target for the state below them. -/
  reduce : ∀ i, t.actionOn c.state c.lookahead = .ok (some (.reduce i)) →
    ∃ p, t.grammar.production? i = some p ∧ p.body.length ≤ c.trees.length ∧
      AreTrees t.grammar p.body (c.trees.take p.body.length).reverse ∧
      ∃ exposed rest j, (c.state :: c.below).drop p.body.length = exposed :: rest ∧
        t.goto.get? (exposed, .nonterminal p.head) = some j
  /-- What is accepted is the only tree on the stack, and a tree of the start symbol. -/
  accept : t.actionOn c.state c.lookahead = .ok (some .accept) →
    ∃ p children, c.trees = [.node p children] ∧ p.head = t.grammar.start

/-- **A parser that is ready moves on, accepts a tree of the start symbol or reports a syntax error.** -/
theorem ParsingTable.IsReady.step_cases {t : ParsingTable α} (h : t.IsReady c) :
    (∃ c', t.step c = .next c') ∨
    (∃ p children, t.step c = .stop (.accepted (.node p children)) ∧ c.trees = [.node p children] ∧
      p.head = t.grammar.start) ∨
    t.step c = .stop (.syntaxError c.lookahead c.state (t.expected c.state)) := by
  obtain ⟨act, ha⟩ := h.lookup
  cases act with
  | none =>
    refine .inr (.inr ?_)
    simp only [step, ha]
  | some act =>
    cases act with
    | shift j =>
      refine .inl ⟨c.afterShift j, ?_⟩
      simp only [step, ha]
      rfl
    | reduce i =>
      obtain ⟨p, hp, _, _, exposed, rest, j, hdrop, hj⟩ := h.reduce i ha
      refine .inl ⟨c.afterReduce p j exposed rest, ?_⟩
      simp only [step, ha, hp, ParsingTable.reduce, hdrop, hj]
      rfl
    | accept =>
      obtain ⟨p, children, htrees, hhead⟩ := h.accept ha
      refine .inr (.inl ⟨p, children, ?_, htrees, hhead⟩)
      simp only [step, ha, htrees]

/-! ## Parsers along a path -/

/-- The states of a trail are states of the automaton. -/
theorem Trail.lt_size {is : List Int} (h : Trail g is xs) :
    ∀ i ∈ is, 0 ≤ i ∧ i < ((canonicalAutomaton g).size : Int) := by
  have hlast : ∀ {i : Int} {js : List Int} {ys : List Symbol}, Trail g (i :: js) ys →
      0 ≤ i ∧ i < ((canonicalAutomaton g).size : Int) := by
    intro i js ys h
    obtain ⟨n, rfl, hn⟩ := h.exists_state
    have hlt : n < (canonicalAutomaton g).size := (List.getElem?_eq_some_iff.mp hn).1
    omega
  induction h with
  | start =>
    intro i hi
    obtain rfl := List.mem_singleton.mp hi
    exact hlast .start
  | push h hj ih =>
    intro i hi
    rcases List.mem_cons.mp hi with rfl | hi
    · exact hlast (h.push hj)
    · exact ih i hi

/-- A token with a name is read as a terminal or as none, and the end of the input as the end marker. -/
theorem ParsingTable.exists_classify_of_named {t : ParsingTable α} {o : Option (Token τ)}
    (hn : ∀ token, o = some token → token.name?.isSome) : ∃ a, t.classify o = .ok a := by
  cases o with
  | none => exact ⟨_, rfl⟩
  | some token =>
    obtain ⟨name, hname⟩ := Option.isSome_iff_exists.mp (hn token rfl)
    exact ⟨_, by rw [classify, Token.name?_eq_some_iff.mp hname]⟩

/-- A token with a name can be looked up, and so can the end of the input. -/
theorem ParsingTable.exists_actionOn_of_named {t : ParsingTable α} {i : Int} {o : Option (Token τ)}
    (hn : ∀ token, o = some token → token.name?.isSome) : ∃ act, t.actionOn i o = .ok act := by
  obtain ⟨a, ha⟩ := exists_classify_of_named (t := t) hn
  unfold actionOn
  rw [ha]
  cases a with
  | none => exact ⟨_, rfl⟩
  | some a => exact ⟨_, rfl⟩

/-- **A parser along a path is ready for its next move.** -/
theorem Along.isReady (h : Along g c xs) (hn : ∀ token, c.lookahead = some token → token.name?.isSome) :
    (canonicalAutomaton g).table.IsReady c where
  length_states := by
    have htrees := h.trees.length_eq
    rw [List.length_reverse, List.length_reverse] at htrees
    rw [h.trail.length_eq, htrees]
  states_lt := h.trail.lt_size
  lookup := ParsingTable.exists_actionOn_of_named hn
  reduce i ha := by
    obtain ⟨t, ht, hget⟩ := ParsingTable.actionOn_eq_some_iff.mp ha
    rcases h.trail.action_cases hget with ⟨_, he, _⟩ | ⟨p, hp, ys, he, _, rfl, hx⟩ | ⟨he, _⟩
    · cases he
    · obtain rfl := Action.reduce.inj he
      obtain ⟨exposed, rest, j, hdrop, hj, _⟩ := h.trail.exists_target hx
      have hchildren := (areTrees_pop h.trees).1
      refine ⟨p, Grammar.production?_number (List.mem_of_mem_tail hp), ?_, hchildren, exposed, rest, j, hdrop, hj⟩
      have hlen := hchildren.length_eq
      rw [List.length_reverse, List.length_take] at hlen
      omega
    · cases he
  accept ha := by
    obtain ⟨t, ht, hget⟩ := ParsingTable.actionOn_eq_some_iff.mp ha
    rcases h.trail.action_cases hget with ⟨_, he, _⟩ | ⟨_, _, _, he, _⟩ | ⟨_, rfl, rfl⟩
    · cases he
    · cases he
    · obtain ⟨tree, _, htrees, htree, _⟩ := h.step_of_accept ht ha
      obtain ⟨p, children, rfl, -, hp, -⟩ := htree.exists_node
      exact ⟨p, children, htrees, hp⟩

/-- **On tokens with names the parser is always ready, and ends with a tree of the start symbol or a syntax error.** -/
theorem isReady_of_leads {tokens : List (Token τ)} (hn : ∀ token ∈ tokens, token.name?.isSome) :
    (∀ c : Config α τ, (canonicalAutomaton g).table.Leads (.initial (tokens.map some)) c →
      (canonicalAutomaton g).table.IsReady c) ∧
    ∀ (n : Nat) (o : Outcome α τ) (c : Config α τ),
      (canonicalAutomaton g).table.run n (.initial (tokens.map some)) = some (o, c) →
      (∃ p children, o = .accepted (.node p children) ∧ c.trees = [.node p children] ∧ p.head = g.start) ∨
        o = .syntaxError c.lookahead c.state ((canonicalAutomaton g).table.expected c.state) := by
  have hready : ∀ c : Config α τ, (canonicalAutomaton g).table.Leads (.initial (tokens.map some)) c →
      (canonicalAutomaton g).table.IsReady c := by
    intro c hl
    obtain ⟨⟨xs, h⟩, hstream⟩ := exists_along_of_leads hl
    refine h.isReady fun token ht => hn token ?_
    have hmem : some token ∈ c.input := by
      rw [Config.input_eq_cons ht]
      exact List.mem_cons_self
    have hstream' : some token ∈ tokens.map some := hstream ▸ List.mem_append_right _ hmem
    simpa using hstream'
  refine ⟨hready, fun n o c hr => ?_⟩
  obtain ⟨hl, ho⟩ := ParsingTable.leads_of_run hr
  rcases (hready c hl).step_cases with ⟨c', hs⟩ | ⟨p, children, hs, htrees, hp⟩ | hs
  · rw [ho] at hs
    cases hs
  · rw [ho] at hs
    exact .inl ⟨p, children, Move.stop.inj hs, htrees, hp⟩
  · rw [ho] at hs
    exact .inr (Move.stop.inj hs)

namespace Sums

/-- A sum with a sign in place of what a sign adds. -/
def broken : List (Token String) := ["1", "+", "+"].map Token.ofName

/-- The parser that has read one and a sign and looks at the second sign. -/
def beforeSign : Config Unit String := ⟨3, [1, 0], [.leaf (some (.ofName "+")), unit], [some (.ofName "+")]⟩

set_option maxRecDepth 20000 in
/-- The second sign is a syntax error, and the parser that meets it lacks nothing. -/
theorem isReady_broken :
    (∀ token ∈ broken, token.name?.isSome) ∧
      (canonicalAutomaton grammar).table.run 4 (.initial (broken.map some)) =
        some (.syntaxError (some (.ofName "+")) 3 [one], beforeSign) ∧
      (canonicalAutomaton grammar).table.IsReady beforeSign := by
  have hn : ∀ token ∈ broken, token.name?.isSome := by decide
  have hr : (canonicalAutomaton grammar).table.run 4 (.initial (broken.map some)) =
      some (.syntaxError (some (.ofName "+")) 3 [one], beforeSign) := by rfl
  exact ⟨hn, hr, (isReady_of_leads hn).1 _ (ParsingTable.leads_of_run hr).1⟩

end Sums

end CanonicalLR
