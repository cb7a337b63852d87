import CanonicalLR.Parse.Machine
import CanonicalLR.Proofs.Parse.Tree
import CanonicalLR.Proofs.Table.Canonical

/-!
# Moves of the parser of a canonical table

The states on the stack are those along a path from the first state (`Trail`), and the trees on the stack are trees of
the symbols of that path (`Along`). So a parser knows what its stacks hold: `Along.step_cases` lists all that one move
can do. A shift adds a terminal to the path; a reduction finds the body of its production at the end of the path and
puts the head in its place; a run is accepted only at the end of the input, with a tree of the start symbol; and apart
from that it only stops at a syntax error or at a token that cannot be looked up.
-/

namespace CanonicalLR

variable {α τ : Type}

/-- The states of the canonical automaton along a path from the first state. Both the states and the symbols of the
path have the last one first. -/
inductive Trail (g : Grammar α) : List Int → List Symbol → Prop
  | start : Trail g [0] []
  | push {i j : Int} {is : List Int} {x : Symbol} {xs : List Symbol} : Trail g (i :: is) xs →
      (canonicalAutomaton g).transitions.get? (i, .symbol x) = some j → Trail g (j :: i :: is) (x :: xs)

/-- The stacks of a parser stand along a path, the last symbol first. -/
structure Along (g : Grammar α) (c : Config α τ) (xs : List Symbol) : Prop where
  trail : Trail g (c.state :: c.below) xs
  trees : AreTrees g xs.reverse c.trees.reverse

variable {g : Grammar α} {i j : Int} {is : List Int} {x : Symbol} {xs : List Symbol}

/-! ## Trails -/

/-- The last state of a trail is the set after its symbols. -/
theorem Trail.exists_state (h : Trail g (i :: is) xs) :
    ∃ n : Nat, i = n ∧ (canonicalAutomaton g).states[n]? = some (itemsAfter g xs.reverse) := by
  generalize hs : i :: is = states at h
  induction h generalizing i is with
  | start =>
    obtain ⟨rfl, rfl⟩ := List.cons.inj hs
    exact ⟨0, rfl, getElem?_states_zero⟩
  | @push i' j' is' x xs _ hj ih =>
    obtain ⟨rfl, rfl⟩ := List.cons.inj hs
    obtain ⟨n, rfl, hn⟩ := ih rfl
    obtain ⟨_, m, rfl, hm⟩ := (get?_transitions_natCast_iff hn).mp hj
    refine ⟨m, rfl, ?_⟩
    rw [List.reverse_cons, itemsAfter_append_singleton]
    exact hm

/-- There are items wherever a trail leads. -/
theorem Trail.exists_item (h : Trail g is xs) : ∃ it, it ∈ itemsAfter g xs.reverse := by
  cases h with
  | start => exact ⟨initialItem, mem_closure_of_mem List.mem_cons_self⟩
  | @push i j is x xs h hj =>
    obtain ⟨n, rfl, hn⟩ := h.exists_state
    rw [List.reverse_cons, itemsAfter_append_singleton]
    exact exists_mem_goto_iff.mpr ((get?_transitions_natCast_iff hn).mp hj).1

theorem Trail.length_eq (h : Trail g is xs) : is.length = xs.length + 1 := by
  induction h with
  | start => rfl
  | push _ _ ih => rw [List.length_cons, ih, List.length_cons]

/-- What is left of a trail when its last symbols are taken off. -/
theorem Trail.drop (h : Trail g is xs) {k : Nat} (hk : k ≤ xs.length) : Trail g (is.drop k) (xs.drop k) := by
  induction h generalizing k with
  | start =>
    obtain rfl := Nat.le_zero.mp hk
    exact .start
  | push h hj ih =>
    cases k with
    | zero => exact h.push hj
    | succ k => exact ih (Nat.le_of_succ_le_succ hk)

/-- A trail goes on over every symbol after a dot. -/
theorem Trail.exists_push (h : Trail g (i :: is) xs) (hx : x ∈ (itemsAfter g xs.reverse).nextSymbols g) :
    ∃ j, (canonicalAutomaton g).transitions.get? (i, .symbol x) = some j ∧ Trail g (j :: i :: is) (x :: xs) := by
  obtain ⟨n, rfl, hn⟩ := h.exists_state
  obtain ⟨m, hm, _⟩ := exists_transition hn hx
  exact ⟨m, hm, h.push hm⟩

theorem Trail.transitions_iff_goto (h : Trail g (i :: is) xs) {n : NonTerminal} :
    (canonicalAutomaton g).transitions.get? (i, .nonterminal n) = some j ↔
      (canonicalAutomaton g).table.goto.get? (i, .nonterminal n) = some j := by
  obtain ⟨k, rfl, hk⟩ := h.exists_state
  rw [get?_goto_canonical_iff hk, ← get?_outgoing_canonical_iff hk, get?_outgoing sources_nonneg]
  exact (and_iff_right (List.getElem?_eq_some_iff.mp hk).1).symm

/-- Below a body at the end of a trail there is a target for the head that was called for there. -/
theorem Trail.exists_target {p : Production α} {ys : List Symbol} (h : Trail g is (p.body.reverse ++ ys))
    (hx : .nonterminal p.head ∈ (itemsAfter g ys.reverse).nextSymbols g) :
    ∃ i js j, is.drop p.body.length = i :: js ∧
      (canonicalAutomaton g).table.goto.get? (i, .nonterminal p.head) = some j ∧
      Trail g (j :: i :: js) (.nonterminal p.head :: ys) := by
  have htrail := h.drop (k := p.body.length) (by simp)
  rw [List.drop_left' List.length_reverse] at htrail
  obtain ⟨i, js, hdrop⟩ : ∃ i js, is.drop p.body.length = i :: js := by
    refine List.exists_cons_of_length_pos ?_
    rw [htrail.length_eq]
    omega
  rw [hdrop] at htrail
  obtain ⟨j, hj, hpush⟩ := htrail.exists_push hx
  exact ⟨i, js, j, hdrop, htrail.transitions_iff_goto.mp hj, hpush⟩

/-- **What the items after the symbols of a trail offer.** -/
theorem Trail.offered_cases {n : Nat} (h : Trail g (n :: is) xs)
    (hn : (canonicalAutomaton g).states[n]? = some (itemsAfter g xs.reverse)) {t : Terminal} {act : Action}
    (ho : act ∈ (canonicalAutomaton g).offered n (itemsAfter g xs.reverse) t) :
    (∃ j, act = .shift j ∧ t ≠ endMark ∧ Trail g (j :: n :: is) (.terminal t :: xs)) ∨
    (∃ p ∈ g.productions.tail, ∃ ys, act = .reduce p.number ∧ p.item p.body.length t ∈ itemsAfter g xs.reverse ∧
      xs = p.body.reverse ++ ys ∧ .nonterminal p.head ∈ (itemsAfter g ys.reverse).nextSymbols g) ∨
    (act = .accept ∧ t = endMark ∧ xs = [.nonterminal g.start]) := by
  rcases (mem_offered_canonical_iff hn).mp ho with ⟨p, hp, hit, rfl⟩ | ⟨hx, m, rfl, hm⟩
  · refine .inr ?_
    obtain ⟨δ, hxs, hδ⟩ := exists_callsFor_of_item_mem hp (List.append_nil _).symm hit
    by_cases h0 : p = g.augmented
    · subst h0
      obtain ⟨rfl, hxs⟩ := item_augmented_mem_itemsAfter hit
      refine .inr ⟨rfl, rfl, ?_⟩
      rw [← List.reverse_inj, hxs]
      rfl
    · have htail : p ∈ g.productions.tail := Grammar.mem_tail_iff.mpr ⟨hp, h0⟩
      refine .inl ⟨p, htail, δ.reverse, completing_of_ne_zero (Grammar.number_ne_zero_of_mem_tail htail), hit, ?_, ?_⟩
      · rw [← List.reverse_inj, hxs]
        simp
      · rw [List.reverse_reverse]
        exact hδ.mem_nextSymbols fun hn => h0 ((Grammar.head_eq_augmentedStart_iff hp).mp hn)
  · refine .inl ⟨m, rfl, ?_, h.push ((get?_transitions_natCast_iff hn).mpr ⟨hx, m, rfl, hm⟩)⟩
    obtain ⟨q, hq, hb⟩ := exists_mem_body_of_mem_nextSymbols (List.mem_of_getElem? hn) hx
    exact Grammar.ne_endMark_of_mem_body hq hb

/-- **What an entry of the table says at the end of a trail.** -/
theorem Trail.action_cases (h : Trail g (i :: is) xs) {t : Terminal} {act : Action}
    (ha : (canonicalAutomaton g).table.action.get? (i, .terminal t) = some act) :
    (∃ j, act = .shift j ∧ t ≠ endMark ∧ Trail g (j :: i :: is) (.terminal t :: xs)) ∨
    (∃ p ∈ g.productions.tail, ∃ ys, act = .reduce p.number ∧ p.item p.body.length t ∈ itemsAfter g xs.reverse ∧
      xs = p.body.reverse ++ ys ∧ .nonterminal p.head ∈ (itemsAfter g ys.reverse).nextSymbols g) ∨
    (act = .accept ∧ t = endMark ∧ xs = [.nonterminal g.start]) := by
  obtain ⟨n, rfl, hn⟩ := h.exists_state
  exact h.offered_cases hn (mem_offered_of_get?_action ha hn)

/-! ## Lookaheads -/

/-- The token that is looked at is the first of the input. -/
theorem Config.input_eq_cons {c : Config α τ} {token : Token τ} (h : c.lookahead = some token) :
    c.input = some token :: c.input.tail := by
  unfold Config.lookahead at h
  cases hc : c.input with
  | nil => simp [hc] at h
  | cons o rest => simp_all

/-- Where there is no token to look at, the input is over, if it holds nothing but tokens. -/
theorem Config.input_eq_nil {c : Config α τ} (h : c.lookahead = none) (hin : ∀ o ∈ c.input, o.isSome) :
    c.input = [] := by
  unfold Config.lookahead at h
  cases hc : c.input with
  | nil => rfl
  | cons o rest =>
    have ho := hin o (by rw [hc]; exact List.mem_cons_self)
    simp_all

namespace ParsingTable

variable {t : ParsingTable α}

theorem terminalOf?_eq_some_iff {name : String} {a : Terminal} :
    t.terminalOf? name = some a ↔ a ∈ t.grammar.vocabulary.terminals ∧ a.name = name := by
  unfold terminalOf?
  constructor
  · intro h
    exact ⟨List.mem_of_find?_eq_some h, by simpa using List.find?_some h⟩
  · rintro ⟨ha, rfl⟩
    cases hf : t.grammar.vocabulary.terminals.find? fun b => b.name = a.name with
    | none =>
      have := List.find?_eq_none.mp hf a ha
      simp at this
    | some b =>
      have hb : b.name = a.name := by simpa using List.find?_some hf
      rw [Terminal.eq_of_name_eq hb]

/-- A token is read as the declared terminal that it stands for. -/
theorem classify_some_iff {token : Token τ} {a : Terminal} :
    t.classify (some token) = .ok (some a) ↔ a ∈ t.grammar.vocabulary.terminals ∧ StandsFor (some token) a := by
  rw [StandsFor, Token.name?_eq_some_iff]
  simp only [classify]
  split
  · rename_i name h
    simp only [h, Except.ok.injEq, terminalOf?_eq_some_iff, Option.some.injEq, Reading.text.injEq]
    exact and_congr_right fun _ => eq_comm
  · rename_i h
    simp [h]
  · rename_i h
    simp [h]
  · rename_i h
    simp [h]

theorem classify_error {o : Option (Token τ)} {f : MachineFault} (h : t.classify o = .error f) :
    f = .noLabel ∨ f = .badLabel := by
  unfold classify at h
  split at h
  · cases h
  · split at h <;> cases h <;> simp

theorem actionOn_eq_some_iff {i : Int} {o : Option (Token τ)} {act : Action} :
    t.actionOn i o = .ok (some act) ↔ ∃ a, t.classify o = .ok (some a) ∧ t.action.get? (i, .terminal a) = some act := by
  unfold actionOn
  cases t.classify o with
  | error f => simp [bind, Except.bind]
  | ok a =>
    cases a with
    | none => simp [bind, Except.bind, pure, Except.pure]
    | some a => simp [bind, Except.bind, pure, Except.pure]

theorem actionOn_error {i : Int} {o : Option (Token τ)} {f : MachineFault} (h : t.actionOn i o = .error f) :
    f = .noLabel ∨ f = .badLabel := by
  unfold actionOn at h
  cases hc : t.classify o with
  | error e =>
    rw [hc] at h
    cases h
    exact classify_error hc
  | ok a =>
    rw [hc] at h
    cases a <;> cases h

/-- The production that the next move reduces by, if it reduces. -/
def reduction? (t : ParsingTable α) (c : Config α τ) : Option (Production α) :=
  match t.actionOn c.state c.lookahead with
  | .ok (some (.reduce i)) => t.grammar.production? i
  | _ => none

end ParsingTable

/-! ## Trees on the stack -/

theorem areTrees_push_iff {s : Symbol} {t : Tree α τ} {ts : List (Tree α τ)} :
    AreTrees g (s :: xs).reverse (t :: ts).reverse ↔ AreTrees g xs.reverse ts.reverse ∧ IsTree g s t := by
  rw [List.reverse_cons, List.reverse_cons]
  have hone : AreTrees g [s] [t] ↔ IsTree g s t := by simp
  constructor
  · intro h
    have hl := h.length_eq
    simp only [List.length_append, List.length_reverse, List.length_singleton] at hl
    rwa [areTrees_append_iff (by simp only [List.length_reverse]; omega), hone] at h
  · intro h
    rw [areTrees_append_iff h.1.length_eq, hone]
    exact h

/-- The trees of the last symbols of a path are on top of the stack. -/
theorem areTrees_pop {ss ys : List Symbol} {ts : List (Tree α τ)}
    (h : AreTrees g (ss.reverse ++ ys).reverse ts.reverse) :
    AreTrees g ss (ts.take ss.length).reverse ∧ AreTrees g ys.reverse (ts.drop ss.length).reverse := by
  rw [List.reverse_append, List.reverse_reverse] at h
  have hl := h.length_eq
  simp only [List.length_append, List.length_reverse] at hl
  have hts : ts.reverse = (ts.drop ss.length).reverse ++ (ts.take ss.length).reverse := by
    rw [← List.reverse_append, List.take_append_drop]
  rw [hts, areTrees_append_iff (by simp only [List.length_reverse, List.length_drop]; omega)] at h
  exact ⟨h.2, h.1⟩

/-! ## One move -/

theorem along_initial {input : List (Option (Token τ))} : Along g (.initial input) [] := ⟨.start, areTrees_nil.mpr rfl⟩

/-- The parser after a shift. -/
def Config.afterShift (c : Config α τ) (j : Int) : Config α τ :=
  { state := j, below := c.state :: c.below, trees := .leaf c.lookahead :: c.trees, input := c.input.tail }

/-- The parser after a reduction by `p`, above the state `i`. -/
def Config.afterReduce (c : Config α τ) (p : Production α) (j i : Int) (is : List Int) : Config α τ :=
  { c with
    state := j
    below := i :: is
    trees := .node p (c.trees.take p.body.length).reverse :: c.trees.drop p.body.length }

section Step

variable {c : Config α τ}

theorem Along.step_of_shift (h : Along g c xs) {t : Terminal}
    (ht : (canonicalAutomaton g).table.classify c.lookahead = .ok (some t)) (hend : t ≠ endMark)
    (ha : (canonicalAutomaton g).table.actionOn c.state c.lookahead = .ok (some (.shift j)))
    (hj : Trail g (j :: c.state :: c.below) (.terminal t :: xs)) :
    (∃ token, c.lookahead = some token) ∧ (canonicalAutomaton g).table.step c = .next (c.afterShift j) ∧
      (canonicalAutomaton g).table.reduction? c = none ∧ Along g (c.afterShift j) (.terminal t :: xs) := by
  have hstep : (canonicalAutomaton g).table.step c = .next (c.afterShift j) := by
    simp only [ParsingTable.step, ha]
    rfl
  have hred : (canonicalAutomaton g).table.reduction? c = none := by simp only [ParsingTable.reduction?, ha]
  cases hl : c.lookahead with
  | none =>
    rw [hl] at ht
    have he : endMark = t := by simpa [ParsingTable.classify] using ht
    exact absurd he.symm hend
  | some token =>
    rw [hl] at ht
    refine ⟨⟨token, rfl⟩, hstep, hred, hj, areTrees_push_iff.mpr ⟨h.trees, ?_⟩⟩
    rw [IsTree, hl]
    exact ⟨t, rfl, (ParsingTable.classify_some_iff.mp ht).2⟩

theorem Along.step_of_reduce {p : Production α} (hp : p ∈ g.productions.tail) {ys : List Symbol}
    (h : Along g c (p.body.reverse ++ ys)) (hx : .nonterminal p.head ∈ (itemsAfter g ys.reverse).nextSymbols g)
    (ha : (canonicalAutomaton g).table.actionOn c.state c.lookahead = .ok (some (.reduce p.number))) :
    ∃ j i is, (c.state :: c.below).drop p.body.length = i :: is ∧
      (canonicalAutomaton g).table.step c = .next (c.afterReduce p j i is) ∧
      (canonicalAutomaton g).table.reduction? c = some p ∧
      Along g (c.afterReduce p j i is) (.nonterminal p.head :: ys) := by
  have hprod : (canonicalAutomaton g).table.grammar.production? p.number = some p :=
    Grammar.production?_number (List.mem_of_mem_tail hp)
  obtain ⟨i, is, j, hdrop, hgoto, hpush⟩ := h.trail.exists_target hx
  obtain ⟨hchildren, hrest⟩ := areTrees_pop h.trees
  refine ⟨j, i, is, hdrop, ?_, ?_, hpush, areTrees_push_iff.mpr ⟨hrest, ?_⟩⟩
  · simp only [ParsingTable.step, ha, hprod, ParsingTable.reduce, hdrop, hgoto]
    rfl
  · simp only [ParsingTable.reduction?, ha, hprod]
  · rw [IsTree]
    exact ⟨hp, rfl, hchildren⟩

theorem Along.step_of_accept (h : Along g c [.nonterminal g.start])
    (ht : (canonicalAutomaton g).table.classify c.lookahead = .ok (some endMark))
    (ha : (canonicalAutomaton g).table.actionOn c.state c.lookahead = .ok (some .accept)) :
    ∃ tree, c.lookahead = none ∧ c.trees = [tree] ∧ IsTree g (.nonterminal g.start) tree ∧
      (canonicalAutomaton g).table.step c = .stop (.accepted tree) := by
  have hlen := h.trees.length_eq
  simp only [List.length_reverse, List.length_singleton] at hlen
  obtain ⟨tree, htree⟩ := List.length_eq_one_iff.mp hlen
  have htrees := h.trees
  rw [htree] at htrees
  refine ⟨tree, ?_, htree, ?_, ?_⟩
  · cases hl : c.lookahead with
    | none => rfl
    | some token =>
      rw [hl] at ht
      exact absurd rfl (Grammar.ne_endMark_of_mem_vocabulary (ParsingTable.classify_some_iff.mp ht).1)
  · simpa using htrees
  · simp only [ParsingTable.step, ha, htree]

end Step

/-- **All that one move can do.** -/
theorem Along.step_cases {c : Config α τ} (h : Along g c xs) :
    (∃ t j, (canonicalAutomaton g).table.classify c.lookahead = .ok (some t) ∧ (∃ token, c.lookahead = some token) ∧
      (canonicalAutomaton g).table.step c = .next (c.afterShift j) ∧
      (canonicalAutomaton g).table.reduction? c = none ∧ Along g (c.afterShift j) (.terminal t :: xs)) ∨
    (∃ p ∈ g.productions.tail, ∃ ys j i is, xs = p.body.reverse ++ ys ∧
      (c.state :: c.below).drop p.body.length = i :: is ∧
      (canonicalAutomaton g).table.step c = .next (c.afterReduce p j i is) ∧
      (canonicalAutomaton g).table.reduction? c = some p ∧
      Along g (c.afterReduce p j i is) (.nonterminal p.head :: ys)) ∨
    (∃ tree, c.lookahead = none ∧ c.trees = [tree] ∧ IsTree g (.nonterminal g.start) tree ∧
      (canonicalAutomaton g).table.step c = .stop (.accepted tree)) ∨
    (∃ o, (canonicalAutomaton g).table.step c = .stop o ∧
      (o = .syntaxError c.lookahead c.state ((canonicalAutomaton g).table.expected c.state) ∨
        o = .fault .noLabel ∨ o = .fault .badLabel)) := by
  cases ha : (canonicalAutomaton g).table.actionOn c.state c.lookahead with
  | error f =>
    refine .inr (.inr (.inr ⟨.fault f, ?_, ?_⟩))
    · simp only [ParsingTable.step, ha]
    · rcases ParsingTable.actionOn_error ha with rfl | rfl <;> simp
  | ok act =>
    cases act with
    | none =>
      refine .inr (.inr (.inr ⟨_, ?_, .inl rfl⟩))
      simp only [ParsingTable.step, ha]
    | some act =>
      obtain ⟨t, ht, hget⟩ := ParsingTable.actionOn_eq_some_iff.mp ha
      rcases h.trail.action_cases hget with ⟨j, rfl, hend, hj⟩ | ⟨p, hp, ys, rfl, _, rfl, hx⟩ | ⟨rfl, rfl, rfl⟩
      · exact .inl ⟨t, j, ht, h.step_of_shift ht hend ha hj⟩
      · obtain ⟨j, i, is, hstep⟩ := Along.step_of_reduce hp h hx ha
        exact .inr (.inl ⟨p, hp, ys, j, i, is, rfl, hstep⟩)
      · exact .inr (.inr (.inl (h.step_of_accept ht ha)))

/-- **What was done if the parser goes on**: a shift or a reduction. -/
theorem Along.next_cases {c c' : Config α τ} (h : Along g c xs)
    (hs : (canonicalAutomaton g).table.step c = .next c') :
    (∃ t j token, (canonicalAutomaton g).table.classify c.lookahead = .ok (some t) ∧ c.lookahead = some token ∧
      (canonicalAutomaton g).table.reduction? c = none ∧ c' = c.afterShift j ∧ Along g c' (.terminal t :: xs)) ∨
    (∃ p ∈ g.productions.tail, ∃ ys j i is, xs = p.body.reverse ++ ys ∧
      (canonicalAutomaton g).table.reduction? c = some p ∧ c' = c.afterReduce p j i is ∧
      Along g c' (.nonterminal p.head :: ys)) := by
  rcases h.step_cases with ⟨t, j, ht, ⟨token, hl⟩, hstep, hred, hc⟩ | ⟨p, hp, ys, j, i, is, hxs, _, hstep, hred, hc⟩ |
    ⟨tree, _, _, _, hstep⟩ | ⟨o, hstep, _⟩ <;> rw [hs] at hstep <;> cases hstep
  · exact .inl ⟨t, j, token, ht, hl, hred, rfl, hc⟩
  · exact .inr ⟨p, hp, ys, j, i, is, hxs, hred, rfl, hc⟩

/-- What the parser reduces by is completed on the lookahead. -/
theorem Along.item_mem_of_reduction {c : Config α τ} (h : Along g c xs) {p : Production α}
    (hr : (canonicalAutomaton g).table.reduction? c = some p) :
    ∃ t, (canonicalAutomaton g).table.classify c.lookahead = .ok (some t) ∧ p ∈ g.productions ∧
      p.item p.body.length t ∈ itemsAfter g xs.reverse := by
  unfold ParsingTable.reduction? at hr
  split at hr
  · rename_i i ha
    obtain ⟨t, ht, hget⟩ := ParsingTable.actionOn_eq_some_iff.mp ha
    rcases h.trail.action_cases hget with ⟨_, he, _⟩ | ⟨q, hq, _, he, hit, _⟩ | ⟨he, _⟩
    · cases he
    · have hq' := List.mem_of_mem_tail hq
      obtain rfl := Action.reduce.inj he
      obtain rfl := Option.some.inj ((Grammar.production?_number hq').symm.trans hr)
      exact ⟨t, ht, hq', hit⟩
    · cases he
  · cases hr

end CanonicalLR
