import CanonicalLR.Proofs.Parse.Completeness
import CanonicalLR.Proofs.Parse.Prefix
import CanonicalLR.Proofs.Parse.Progress
import CanonicalLR.Proofs.Parse.Termination
import CanonicalLR.Proofs.Table.Reordering

/-!
# Parsing with the rules in another order

Let there be no conflicts. Then a parser does what the items along its path offer on the lookahead, and these are the
same with the rules in another order, apart from the numbers of their productions. So two parsers that stand along the
same path with trees that are the same up to these numbers (`InStep`) make the same move, and do so until they stop with
the same outcome (`InStep.step`, `InStep.run`). If one of them never stops, neither does the other.

`isRenumbering_of_reorders` says all that another order of the rules does. That parsers need not stop is so even without
conflicts (`Endless.no_outcome_of_reorders`), but not without underivable non-terminals
(`Grammar.Reorders.exists_sameOutcome`).
-/

namespace CanonicalLR

variable {α τ : Type}

/-! ## Outcomes up to numbers -/

mutual

/-- A tree with all production numbers forgotten. -/
def Tree.unnumbered : Tree α τ → Tree α τ
  | .leaf token => .leaf token
  | .node p children => .node { p with number := 0 } (forestUnnumbered children)

/-- Trees with all production numbers forgotten. -/
def forestUnnumbered : List (Tree α τ) → List (Tree α τ)
  | [] => []
  | t :: ts => t.unnumbered :: forestUnnumbered ts

end

theorem forestUnnumbered_eq_map (ts : List (Tree α τ)) : forestUnnumbered ts = ts.map Tree.unnumbered := by
  induction ts with
  | nil => rfl
  | cons t ts ih => rw [forestUnnumbered, ih, List.map_cons]

/-- Nodes are the same up to numbers if their rules and payloads are the same, and their children are up to numbers. -/
theorem unnumbered_node {p q : Production α} {ts us : List (Tree α τ)} (he : q.toRule = p.toRule)
    (ha : q.action = p.action) (h : ts.map Tree.unnumbered = us.map Tree.unnumbered) :
    (Tree.node p ts).unnumbered = (Tree.node q us).unnumbered := by
  rw [Tree.unnumbered, Tree.unnumbered, forestUnnumbered_eq_map, forestUnnumbered_eq_map, h, he, ha]

/-- Two runs end alike: with trees that are the same up to production numbers, or with syntax errors about the same
token that expect the same terminals. -/
inductive SameOutcome : Outcome α τ → Outcome α τ → Prop
  | accepted {tree tree' : Tree α τ} : tree.unnumbered = tree'.unnumbered →
      SameOutcome (.accepted tree) (.accepted tree')
  | syntaxError (token : Option (Token τ)) (state state' : Int) (expected : List Terminal) :
      SameOutcome (.syntaxError token state expected) (.syntaxError token state' expected)

/-! ## Moves without conflicts -/

/-- A lookahead that stands for no terminal is a syntax error. -/
theorem ParsingTable.step_of_unknown {table : ParsingTable α} {c : Config α τ}
    (h : table.classify c.lookahead = .ok none) :
    table.step c = .stop (.syntaxError c.lookahead c.state (table.expected c.state)) := by
  have hnone : table.actionOn c.state c.lookahead = .ok none := by
    unfold actionOn
    rw [h]
    rfl
  simp only [step, hnone]

section Moves

variable {g : Grammar α} {c : Config α τ} {xs : List Symbol} {t : Terminal} (h : Along g c xs)
include h

/-- A lookahead that is not expected is a syntax error. -/
theorem Along.step_of_not_expects (ht : (canonicalAutomaton g).table.classify c.lookahead = .ok (some t))
    (he : ¬g.Expects xs.reverse t) : (canonicalAutomaton g).table.step c =
      .stop (.syntaxError c.lookahead c.state ((canonicalAutomaton g).table.expected c.state)) := by
  have hnone : (canonicalAutomaton g).table.actionOn c.state c.lookahead = .ok none := by
    cases hact : (canonicalAutomaton g).table.actionOn c.state c.lookahead with
    | error f =>
      unfold ParsingTable.actionOn at hact
      rw [ht] at hact
      cases hact
    | ok act =>
      cases act with
      | none => rfl
      | some act =>
        obtain ⟨u, hu, hget⟩ := ParsingTable.actionOn_eq_some_iff.mp hact
        rw [ht] at hu
        obtain rfl := Option.some.inj (Except.ok.inj hu)
        refine absurd ?_ he
        rcases h.trail.action_cases hget with ⟨j, _, _, hj⟩ | ⟨p, hp, _, _, hit, _⟩ | ⟨rfl, rfl, hxs⟩
        · obtain ⟨it, hit⟩ := hj.exists_item
          rw [List.reverse_cons] at hit
          exact .inr (mem_nextSymbols_of_mem_itemsAfter (z := []) hit)
        · exact .inl ⟨p, List.mem_of_mem_tail hp, hit⟩
        · have hbody : xs.reverse = g.augmented.body := by rw [hxs]; rfl
          rw [hbody]
          exact .inl ⟨g.augmented, Grammar.augmented_mem, item_augmented_length_mem_itemsAfter⟩
  simp only [ParsingTable.step, hnone]

variable (ht : (canonicalAutomaton g).table.classify c.lookahead = .ok (some t))
include ht

/-- A terminal after a dot is shifted. -/
theorem Along.step_of_mem_nextSymbols (hx : .terminal t ∈ (itemsAfter g xs.reverse).nextSymbols g) :
    ∃ j, (canonicalAutomaton g).table.step c = .next (c.afterShift j) ∧
      Along g (c.afterShift j) (.terminal t :: xs) := by
  obtain ⟨j, hact, hj⟩ := h.trail.actionOn_of_mem_nextSymbols hx ht
  obtain ⟨q, hq, _, a, _, _, _, hb, _⟩ := exists_callsFor_of_mem_nextSymbols hx
  have hend : t ≠ endMark := Grammar.ne_endMark_of_mem_body hq (hb ▸ List.mem_append_right a List.mem_cons_self)
  obtain ⟨-, hstep, -, hc'⟩ := h.step_of_shift ht hend hact hj
  exact ⟨j, hstep, hc'⟩

/-- Without conflicts a production that can be completed is reduced by, or its tree is accepted. -/
theorem Along.step_of_completion (hc : (canonicalAutomaton g).table.conflicts = []) {p : Production α}
    (hp : p ∈ g.productions) (hit : p.item p.body.length t ∈ itemsAfter g xs.reverse) :
    (p = g.augmented ∧ ∃ tree, c.trees = [tree] ∧ (canonicalAutomaton g).table.step c = .stop (.accepted tree)) ∨
      (p ∈ g.productions.tail ∧ ∃ ys j i is, xs = p.body.reverse ++ ys ∧
        (canonicalAutomaton g).table.step c = .next (c.afterReduce p j i is) ∧
        Along g (c.afterReduce p j i is) (.nonterminal p.head :: ys)) := by
  have hact := h.trail.actionOn_of_completion hp hit ht (ParsingTable.not_rejects_of_conflicts_eq_nil hc)
  obtain ⟨u, hu, hget⟩ := ParsingTable.actionOn_eq_some_iff.mp hact
  rw [ht] at hu
  obtain rfl := Option.some.inj (Except.ok.inj hu)
  by_cases h0 : p = g.augmented
  · subst h0
    rcases h.trail.action_cases hget with ⟨_, he, _⟩ | ⟨_, _, _, he, _⟩ | ⟨_, rfl, rfl⟩
    · cases he
    · cases he
    · obtain ⟨tree, _, htrees, _, hstep⟩ := h.step_of_accept ht hact
      exact .inl ⟨rfl, tree, htrees, hstep⟩
  · have htail : p ∈ g.productions.tail := Grammar.mem_tail_iff.mpr ⟨hp, h0⟩
    rw [completing_of_ne_zero (Grammar.number_ne_zero_of_mem_tail htail)] at hact hget
    rcases h.trail.action_cases hget with ⟨_, he, _⟩ | ⟨q, hq, ys, he, _, rfl, hx⟩ | ⟨he, _⟩
    · cases he
    · obtain rfl := Grammar.eq_of_number_eq hp (List.mem_of_mem_tail hq) (Int.natCast_inj.mp (Action.reduce.inj he))
      obtain ⟨j, i, is, _, hstep, _, hc'⟩ := h.step_of_reduce hq hx hact
      exact .inr ⟨htail, ys, j, i, is, rfl, hstep, hc'⟩
    · cases he

end Moves

/-! ## Two parsers -/

/-- Two parsers stand along the same path, with the same input and with trees that are the same up to production
numbers. -/
structure InStep (g g' : Grammar α) (c c' : Config α τ) (xs : List Symbol) : Prop where
  along : Along g c xs
  along' : Along g' c' xs
  input_eq : c.input = c'.input
  trees_eq : c.trees.map Tree.unnumbered = c'.trees.map Tree.unnumbered

variable {g g' : Grammar α} {c c' : Config α τ} {xs : List Symbol}

theorem inStep_initial {input : List (Option (Token τ))} : InStep g g' (.initial input) (.initial input) [] :=
  ⟨along_initial, along_initial, rfl, rfl⟩

section Reorders

variable (hr : g'.Reorders g)
include hr

/-- A production that can be completed can be completed with the rules in another order. -/
theorem Grammar.Reorders.exists_completion {γ : List Symbol} {t : Terminal} {p : Production α} (hp : p ∈ g.productions)
    (hit : p.item p.body.length t ∈ itemsAfter g γ) : ∃ q ∈ g'.productions, q.toRule = p.toRule ∧
      q.action = p.action ∧ q.item q.body.length t ∈ itemsAfter g' γ := by
  obtain ⟨q, hq, he, ha⟩ := hr.exists_production hp
  have hit' := hr.maps.item_mem hit
  rw [Translation.item_item (renumbering_number hp hq he).symm, renumbering_map] at hit'
  exact ⟨q, hq, he, ha, by rw [congrArg Rule.body he]; exact hit'⟩

theorem Grammar.Reorders.expects {γ : List Symbol} {t : Terminal} (h : g.Expects γ t) : g'.Expects γ t := by
  rcases h with ⟨p, hp, hit⟩ | hx
  · obtain ⟨q, hq, -, -, hqi⟩ := hr.exists_completion hp hit
    exact .inl ⟨q, hq, hqi⟩
  · have hx' := hr.maps.mem_nextSymbols hx
    rw [renumbering_map] at hx'
    exact .inr hx'

/-- The same lookahead is read as the same terminal. -/
theorem Grammar.Reorders.classify_eq (o : Option (Token τ)) :
    (canonicalAutomaton g').table.classify o = (canonicalAutomaton g).table.classify o := by
  have hname : (canonicalAutomaton g').table.terminalOf? = (canonicalAutomaton g).table.terminalOf? := by
    funext name
    exact congrArg (fun v : Vocabulary => v.terminals.find? fun b => b.name = name) hr.vocabulary_eq
  unfold ParsingTable.classify
  rw [hname]

/-- Along the same path the same terminals are expected, in the same order. -/
theorem InStep.expected_eq (h : InStep g g' c c' xs) :
    (canonicalAutomaton g).table.expected c.state = (canonicalAutomaton g').table.expected c'.state := by
  have hentry : ∀ {g : Grammar α} {c : Config α τ} {t : Terminal}, Along g c xs → t ∈ g.terminals →
      (((canonicalAutomaton g).table.action.get? (c.state, .terminal t)).isSome = true ↔ g.Expects xs.reverse t) := by
    intro g c t hc ht
    rw [Option.isSome_iff_exists, ← hc.mem_expected_iff, ParsingTable.mem_expected_iff]
    exact (and_iff_right ht).symm
  have hterminals : (canonicalAutomaton g').table.grammar.terminals = (canonicalAutomaton g).table.grammar.terminals :=
    hr.terminals_eq
  rw [ParsingTable.expected_eq_filter, ParsingTable.expected_eq_filter, hterminals]
  refine List.filter_congr fun t ht => Bool.eq_iff_iff.mpr ?_
  rw [hentry h.along ht, hentry h.along' (hr.terminals_eq ▸ ht)]
  exact ⟨hr.expects, hr.symm.expects⟩

/-- Both parsers reduce by the same rule, or both accept. -/
theorem Grammar.Reorders.step_of_completion (hc : (canonicalAutomaton g).table.conflicts = [])
    (h : InStep g g' c c' xs) {t : Terminal} (ha : (canonicalAutomaton g).table.classify c.lookahead = .ok (some t))
    (ha' : (canonicalAutomaton g').table.classify c'.lookahead = .ok (some t)) {p : Production α}
    (hp : p ∈ g.productions) (hit : p.item p.body.length t ∈ itemsAfter g xs.reverse) :
    (∃ d d' ys, (canonicalAutomaton g).table.step c = .next d ∧ (canonicalAutomaton g').table.step c' = .next d' ∧
      (d.input = c.input ∨ d.input = c.input.tail) ∧ InStep g g' d d' ys) ∨
    (∃ o o', (canonicalAutomaton g).table.step c = .stop o ∧ (canonicalAutomaton g').table.step c' = .stop o' ∧
      SameOutcome o o') := by
  obtain ⟨q, hq, he, hact, hqi⟩ := hr.exists_completion hp hit
  have hhead : q.head = p.head := congrArg Rule.head he
  have hbody : q.body = p.body := congrArg Rule.body he
  have haugmented : p = g.augmented ↔ q = g'.augmented := by
    rw [← head_eq_augmentedStart_iff hp, ← head_eq_augmentedStart_iff hq, hhead]
  rcases h.along.step_of_completion ha hc hp hit with ⟨h0, tree, htrees, hstep⟩ | ⟨hp, ys, j, i, is, rfl, hstep, hd⟩
  · rcases h.along'.step_of_completion ha' (hr.conflicts_eq_nil hc) hq hqi with ⟨_, tree', htrees', hstep'⟩ | ⟨hq, _⟩
    · have htree := h.trees_eq
      rw [htrees, htrees'] at htree
      exact .inr ⟨_, _, hstep, hstep', .accepted (by simpa using htree)⟩
    · exact absurd (haugmented.mp h0) (mem_tail_iff.mp hq).2
  · rcases h.along'.step_of_completion ha' (hr.conflicts_eq_nil hc) hq hqi with ⟨h0, _⟩ |
      ⟨_, ys', j', i', is', hxs, hstep', hd'⟩
    · exact absurd (haugmented.mpr h0) (mem_tail_iff.mp hp).2
    · rw [hbody] at hxs
      obtain rfl := List.append_cancel_left hxs
      rw [hhead] at hd'
      refine .inl ⟨_, _, _, hstep, hstep', .inl rfl, hd, hd', h.input_eq, ?_⟩
      have htake : (c.trees.take p.body.length).reverse.map Tree.unnumbered =
          (c'.trees.take p.body.length).reverse.map Tree.unnumbered := by
        rw [List.map_reverse, List.map_take, h.trees_eq, ← List.map_take, ← List.map_reverse]
      have hdrop : (c.trees.drop p.body.length).map Tree.unnumbered =
          (c'.trees.drop p.body.length).map Tree.unnumbered := by
        rw [List.map_drop, h.trees_eq, ← List.map_drop]
      simp only [Config.afterReduce, hbody, List.map_cons, unnumbered_node he hact htake, hdrop]

/-- **One move**: both parsers go on in step, or both stop with the same outcome. -/
theorem InStep.step (hc : (canonicalAutomaton g).table.conflicts = []) (h : InStep g g' c c' xs)
    (hn : ∀ token, c.lookahead = some token → token.name?.isSome) :
    (∃ d d' ys, (canonicalAutomaton g).table.step c = .next d ∧ (canonicalAutomaton g').table.step c' = .next d' ∧
      (d.input = c.input ∨ d.input = c.input.tail) ∧ InStep g g' d d' ys) ∨
    (∃ o o', (canonicalAutomaton g).table.step c = .stop o ∧ (canonicalAutomaton g').table.step c' = .stop o' ∧
      SameOutcome o o') := by
  have hl : c'.lookahead = c.lookahead := by rw [Config.lookahead, Config.lookahead, h.input_eq]
  have hsame : SameOutcome
      (.syntaxError c.lookahead c.state ((canonicalAutomaton g).table.expected c.state) : Outcome α τ)
      (.syntaxError c'.lookahead c'.state ((canonicalAutomaton g').table.expected c'.state)) := by
    rw [hl, ← h.expected_eq hr]
    exact .syntaxError ..
  obtain ⟨a, ha⟩ : ∃ a, (canonicalAutomaton g).table.classify c.lookahead = .ok a :=
    ParsingTable.exists_classify_of_named hn
  have ha' : (canonicalAutomaton g').table.classify c'.lookahead = .ok a := by rw [hl, hr.classify_eq, ha]
  cases a with
  | none => exact .inr ⟨_, _, ParsingTable.step_of_unknown ha, ParsingTable.step_of_unknown ha', hsame⟩
  | some t =>
    by_cases hexp : g.Expects xs.reverse t
    · rcases hexp with ⟨p, hp, hit⟩ | hx
      · exact hr.step_of_completion hc h ha ha' hp hit
      · -- both shift
        obtain ⟨j, hstep, hd⟩ := h.along.step_of_mem_nextSymbols ha hx
        have hx' := hr.maps.mem_nextSymbols hx
        rw [Grammar.renumbering_map] at hx'
        obtain ⟨j', hstep', hd'⟩ := h.along'.step_of_mem_nextSymbols ha' hx'
        refine .inl ⟨_, _, _, hstep, hstep', .inr rfl, hd, hd', congrArg List.tail h.input_eq, ?_⟩
        simp [Config.afterShift, h.trees_eq, hl]
    · exact .inr ⟨_, _, h.along.step_of_not_expects ha hexp,
        h.along'.step_of_not_expects ha' fun he => hexp (hr.symm.expects he), hsame⟩

/-- **Runs of any length**: both are over with the same outcome and the same input left, or neither is. -/
theorem InStep.run (hc : (canonicalAutomaton g).table.conflicts = []) (n : Nat) (h : InStep g g' c c' xs)
    (hn : ∀ o ∈ c.input, ∀ token, o = some token → token.name?.isSome) :
    Option.Rel (fun a b => SameOutcome a.1 b.1 ∧ a.2.input = b.2.input) ((canonicalAutomaton g).table.run n c)
      ((canonicalAutomaton g').table.run n c') := by
  induction n generalizing c c' xs with
  | zero => exact .none
  | succ n ih =>
    have hl : ∀ token, c.lookahead = some token → token.name?.isSome := fun token hl =>
      hn (some token) (Config.input_eq_cons hl ▸ List.mem_cons_self) token rfl
    rcases h.step hr hc hl with ⟨d, d', ys, hstep, hstep', hin, hd⟩ | ⟨o, o', hstep, hstep', ho⟩
    · simp only [ParsingTable.run, hstep, hstep']
      refine ih hd fun o ho => hn o ?_
      rcases hin with hin | hin
      · exact hin ▸ ho
      · exact List.mem_of_mem_tail (hin ▸ ho)
    · simp only [ParsingTable.run, hstep, hstep']
      exact .some ⟨ho, h.input_eq⟩

end Reorders

/-- A stream of names. -/
def namedStream (names : List String) : List (Option (Token String)) := names.map fun name => some (.ofName name)

theorem name?_of_mem_namedStream {names : List String} :
    ∀ o ∈ namedStream names, ∀ token, o = some token → token.name?.isSome := by
  rintro o ho token rfl
  obtain ⟨name, _, he⟩ := List.mem_map.mp ho
  cases he
  rfl

namespace Grammar.Reorders

variable {g g' : Grammar α} (hr : g'.Reorders g) (hc : (canonicalAutomaton g).table.conflicts = [])
include hr hc

/-- Without conflicts streams of names have the same outcomes, whatever number of moves is allowed. -/
theorem rel_parse? (names : List String) (moves : Nat) :
    Option.Rel (fun a b => SameOutcome a.1 b.1 ∧ a.2 = b.2)
      ((canonicalAutomaton g).table.parse? moves (namedStream names))
      ((canonicalAutomaton g').table.parse? moves (namedStream names)) := by
  have hrun := inStep_initial.run hr hc moves (c := .initial (namedStream names)) name?_of_mem_namedStream
  unfold ParsingTable.parse?
  generalize (canonicalAutomaton g).table.run moves (.initial (namedStream names)) = a at hrun ⊢
  generalize (canonicalAutomaton g').table.run moves (.initial (namedStream names)) = b at hrun ⊢
  cases hrun with
  | none => exact .none
  | some h =>
    refine .some ⟨h.1, ?_⟩
    simp only [Config.taken, h.2]

/-- Without underivable non-terminals they do have outcomes. -/
theorem exists_sameOutcome (hu : g.underivable = []) (names : List String) :
    ∃ moves r r', (canonicalAutomaton g).table.parse? moves (namedStream names) = some r ∧
      (canonicalAutomaton g').table.parse? moves (namedStream names) = some r' ∧ SameOutcome r.1 r'.1 ∧
        r.2 = r'.2 := by
  obtain ⟨⟨moves, r, hparse⟩, -⟩ := parse?_ends_of_underivable hc hu (namedStream names)
  have hrel := hr.rel_parse? hc names moves
  rw [hparse] at hrel
  generalize hparse' : (canonicalAutomaton g').table.parse? moves (namedStream names) = b at hrel
  cases hrel with
  | some h => exact ⟨moves, r, _, hparse, hparse', h⟩

end Grammar.Reorders

/-- **Another order of the rules only renumbers.** The states correspond one to one, the first to the first, with the
production numbers in their items changed to those that the rules have in the other order; transitions lead from
corresponding states to corresponding states; and conflicts are in corresponding cells. Without conflicts the parsers
have the same outcome on every stream of names, with as many moves and as many tokens taken, or neither ever stops. They
do stop where nothing is blocked. -/
theorem isRenumbering_of_reorders {g g' : Grammar α} (hr : g'.Reorders g) :
    (g.renumbering g').Maps g g' ∧ ∃ f : Nat → Nat,
      (canonicalAutomaton g).IsRenumbering (canonicalAutomaton g') (g.renumbering g') f ∧
      (∀ n < (canonicalAutomaton g).size, ∀ t : Terminal,
        (canonicalAutomaton g).table.HasConflict n t ↔ (canonicalAutomaton g').table.HasConflict (f n) t) ∧
      ((canonicalAutomaton g).table.conflicts = [] → ∀ names : List String,
        (∀ moves, Option.Rel (fun a b => SameOutcome a.1 b.1 ∧ a.2 = b.2)
          ((canonicalAutomaton g).table.parse? moves (namedStream names))
          ((canonicalAutomaton g').table.parse? moves (namedStream names))) ∧
        (g.IsUnblocked → ∃ moves r, (canonicalAutomaton g).table.parse? moves (namedStream names) = some r)) := by
  refine ⟨hr.maps, _, hr.isRenumbering, fun n hn t => hr.hasConflict_iff hn,
    fun hc names => ⟨hr.rel_parse? hc names, fun hb => ?_⟩⟩
  exact (ends_of_isUnblocked hc hb (namedStream names)).exists_parse?

namespace Brackets

/-- The rules of the brackets in another order. -/
def reordered : Grammar Unit :=
  .make grammar.vocabulary
    ⟨[(⟨items, [list, items]⟩, none), (⟨list, [opening, items, closing]⟩, none), (⟨items, []⟩, none)],
      by decide, by decide⟩
    list (by decide) (by decide)

set_option maxRecDepth 20000 in
/-- The states of the brackets are numbered in another way, yet the brackets alone are read as a list without items. -/
theorem parse?_reordered :
    reordered.Reorders grammar ∧ (canonicalAutomaton grammar).table.conflicts = [] ∧
      (canonicalAutomaton grammar).follow? 0 [opening, list] ≠
        (canonicalAutomaton reordered).follow? 0 [opening, list] ∧
      ∃ tree : Tree Unit String, tree.unnumbered = emptyList.unnumbered ∧
        (canonicalAutomaton reordered).table.parse? 6 (namedStream ["(", ")"]) = some (.accepted tree, 2) := by
  have hr : reordered.Reorders grammar := ⟨rfl, rfl, by decide⟩
  have hc : (canonicalAutomaton grammar).table.conflicts = [] := by decide +kernel
  have hempty :
      (canonicalAutomaton grammar).table.parse? 6 (namedStream ["(", ")"]) = some (.accepted emptyList, 2) := by rfl
  obtain ⟨-, f, -, -, hparse⟩ := isRenumbering_of_reorders hr
  refine ⟨hr, hc, by decide +kernel, ?_⟩
  have h := (hparse hc ["(", ")"]).1 6
  rw [hempty] at h
  generalize (canonicalAutomaton reordered).table.parse? 6 (namedStream ["(", ")"]) = b at h ⊢
  cases h with
  | @some _ b h =>
    obtain ⟨o, k⟩ := b
    obtain ⟨ho, rfl⟩ := h
    cases ho with
    | accepted he => exact ⟨_, he.symm, rfl⟩

end Brackets

namespace Endless

/-- The rules of the endless grammar, last to first. -/
def reordered : Grammar Unit :=
  .make grammar.vocabulary
    ⟨[(⟨blocked, [blocked, a]⟩, none), (⟨next, [t]⟩, none), (⟨loop, [a]⟩, none), (⟨loop, [loop]⟩, none),
      (⟨start, [loop, next, blocked]⟩, none)], by decide, by decide⟩
    start (by decide) (by decide)

set_option maxRecDepth 20000 in
/-- Without a conflict, neither parser ever has an outcome. -/
theorem no_outcome_of_reorders :
    reordered.Reorders grammar ∧ (canonicalAutomaton grammar).table.conflicts = [] ∧
      (∀ n, (canonicalAutomaton grammar).table.parse? n (namedStream ["a", "t"]) = none) ∧
      ∀ n, (canonicalAutomaton reordered).table.parse? n (namedStream ["a", "t"]) = none := by
  have hr : reordered.Reorders grammar := ⟨rfl, rfl, by decide⟩
  have hc : (canonicalAutomaton grammar).table.conflicts = [] := by decide +kernel
  have hendless : ∀ n, (canonicalAutomaton grammar).table.parse? n (namedStream ["a", "t"]) = none := by
    intro n
    cases hrun : (canonicalAutomaton grammar).table.run n (.initial (namedStream ["a", "t"])) with
    | none => rw [ParsingTable.parse?, hrun]; rfl
    | some r =>
      have he : (canonicalAutomaton grammar).table.Ends (.initial stream) := ⟨n, r, hrun⟩
      exact absurd step_reducing (he.of_leads leads_reducing).not_endless
  refine ⟨hr, hc, hendless, fun n => ?_⟩
  have h := hr.rel_parse? hc ["a", "t"] n
  rw [hendless] at h
  generalize (canonicalAutomaton reordered).table.parse? n (namedStream ["a", "t"]) = b at h ⊢
  cases h
  rfl

end Endless

end CanonicalLR
