import CanonicalLR.Proofs.Parse.Soundness

/-!
# Tokens are conserved by any table

Nothing is asked of a table here but that it does not shift the end marker: its actions may be any, its states any
numbers, and its productions may be counted from the end or not exist. Still a parser that has moved so far has one
state more than trees on its stacks, its trees have a child for each symbol of their productions, and their leaves are
the tokens that it has shifted, all of them and in order (`Conserves`). A reduction that asks for more trees than there
are empties the stack of states, so that the parser goes no further. What is returned at last has a suffix of the
shifted tokens for its leaves (`conserves_any_table`).
-/

namespace CanonicalLR

variable {α τ : Type} {t : ParsingTable α} {c c' : Config α τ} {stream shifted : List (Option (Token τ))}

/-! ## Trees with all their children -/

mutual

/-- Every node of the tree has a child for each symbol of the body of its production. -/
def Tree.IsFull : Tree α τ → Prop
  | .leaf _ => True
  | .node p children => children.length = p.body.length ∧ AreFull children

/-- Every node of the trees has a child for each symbol of the body of its production. -/
def AreFull : List (Tree α τ) → Prop
  | [] => True
  | t :: ts => t.IsFull ∧ AreFull ts

end

theorem areFull_iff {ts : List (Tree α τ)} : AreFull ts ↔ ∀ t ∈ ts, t.IsFull := by
  induction ts with
  | nil => simp [AreFull]
  | cons t ts ih => rw [AreFull, ih, List.forall_mem_cons]

/-! ## Moves -/

namespace ParsingTable

/-- The table never shifts the end marker. -/
def NeverShiftsEnd (t : ParsingTable α) : Prop := ∀ i j, t.action.get? (i, .terminal endMark) ≠ some (.shift j)

/-- What a move shifts: the token that is looked at, or nothing. -/
def shiftedAt (t : ParsingTable α) (c : Config α τ) : List (Option (Token τ)) :=
  match t.actionOn c.state c.lookahead with
  | .ok (some (.shift _)) => [c.lookahead]
  | _ => []

/-- Moves lead from one parser to another, and shift the given tokens on the way. -/
inductive Shifts (t : ParsingTable α) (c : Config α τ) : List (Option (Token τ)) → Config α τ → Prop
  | refl : Shifts t c [] c
  | move {shifted : List (Option (Token τ))} {d e : Config α τ} : Shifts t c shifted d → t.step d = .next e →
      Shifts t c (shifted ++ t.shiftedAt d) e

/-- Wherever moves lead, they have shifted something on the way. -/
theorem Leads.exists_shifts (h : t.Leads c c') : ∃ shifted, t.Shifts c shifted c' := by
  induction h with
  | refl => exact ⟨[], .refl⟩
  | tail _ hs ih =>
    obtain ⟨shifted, h⟩ := ih
    exact ⟨_, h.move hs⟩

end ParsingTable

/-! ## Conservation -/

/-- What is true of a parser that has shifted the given tokens of a stream. -/
structure Conserves (stream shifted : List (Option (Token τ))) (c : Config α τ) : Prop where
  /-- There is one state more than trees. -/
  heights : (c.state :: c.below).length = c.trees.length + 1
  /-- The leaves on the stack are the shifted tokens. -/
  leaves : forestLeaves c.trees.reverse = shifted
  /-- Every node on the stack has a child for each symbol of the body of its production. -/
  full : ∀ tree ∈ c.trees, tree.IsFull
  /-- The shifted tokens and those to come are the stream. -/
  stream_eq : stream = shifted ++ c.input

theorem conserves_initial : Conserves stream [] (.initial stream : Config α τ) where
  heights := rfl
  leaves := rfl
  full := nofun
  stream_eq := rfl

theorem Conserves.afterShift {token : Token τ} (h : Conserves stream shifted c) (hl : c.lookahead = some token)
    (j : Int) : Conserves stream (shifted ++ [c.lookahead]) (c.afterShift j) where
  heights := congrArg (· + 1) h.heights
  leaves := by rw [leaves_afterShift, h.leaves]
  full := List.forall_mem_cons.mpr ⟨by simp only [Tree.IsFull], h.full⟩
  stream_eq := by
    rw [h.stream_eq, Config.input_eq_cons hl, hl, List.append_assoc]
    rfl

theorem Conserves.afterReduce {p : Production α} {i : Int} {is : List Int} (h : Conserves stream shifted c)
    (hdrop : (c.state :: c.below).drop p.body.length = i :: is) (j : Int) :
    Conserves stream shifted (c.afterReduce p j i is) := by
  have hheights := h.heights
  have hlength : (i :: is).length = (c.state :: c.below).length - p.body.length := by
    rw [← hdrop, List.length_drop]
  -- a state is left, so there were as many trees as the body has symbols
  have hle : p.body.length ≤ c.trees.length := by
    rw [List.length_cons] at hlength
    omega
  refine ⟨?_, by rw [leaves_afterReduce, h.leaves], List.forall_mem_cons.mpr ⟨?_, fun tree htree => ?_⟩, h.stream_eq⟩
  · simp only [Config.afterReduce, List.length_cons, List.length_drop] at hlength hheights ⊢
    omega
  · rw [Tree.IsFull, areFull_iff, List.length_reverse, List.length_take, Nat.min_eq_left hle]
    exact ⟨rfl, fun tree htree => h.full tree (List.mem_of_mem_take (List.mem_reverse.mp htree))⟩
  · exact h.full tree (List.mem_of_mem_drop htree)

/-- **One move conserves tokens.** -/
theorem Conserves.next (hend : t.NeverShiftsEnd) (h : Conserves stream shifted c) (hs : t.step c = .next c') :
    Conserves stream (shifted ++ t.shiftedAt c) c' := by
  cases hs ▸ t.effect_step c with
  | @shift j ha =>
    have hshifted : t.shiftedAt c = [c.lookahead] := by simp only [ParsingTable.shiftedAt, ha]
    rw [hshifted]
    obtain ⟨a, hclass, hget⟩ := ParsingTable.actionOn_eq_some_iff.mp ha
    cases hl : c.lookahead with
    | none =>
      rw [hl] at hclass
      cases hclass
      exact absurd hget (hend _ _)
    | some token => exact hl ▸ h.afterShift hl j
  | @reduce k i j is p ha _ hdrop _ =>
    have hshifted : t.shiftedAt c = [] := by simp only [ParsingTable.shiftedAt, ha]
    rw [hshifted, List.append_nil]
    exact h.afterReduce hdrop j

/-- **Any number of moves conserves tokens.** -/
theorem conserves_of_shifts (hend : t.NeverShiftsEnd) (h : t.Shifts (.initial stream) shifted c) :
    Conserves stream shifted c := by
  induction h with
  | refl => exact conserves_initial
  | move _ hs ih => exact ih.next hend hs

/-- One token more than those that were shifted has been taken, unless there is none to come. -/
theorem Conserves.taken_eq (h : Conserves stream shifted c) :
    c.taken stream = if c.input = [] then shifted.length else shifted.length + 1 := by
  have hlength := congrArg List.length h.stream_eq
  rw [List.length_append] at hlength
  rw [Config.taken]
  split
  · rename_i hnil
    rw [hnil, List.length_nil] at hlength ⊢
    omega
  · rename_i hne
    have hpos := List.length_pos_iff.mpr hne
    omega

/-- What is returned has the last of the shifted tokens for its leaves. -/
theorem Conserves.accepted {tree : Tree α τ} (h : Conserves stream shifted c)
    (hs : t.step c = .stop (.accepted tree)) : tree.IsFull ∧ tree.leaves <:+ shifted := by
  obtain ⟨trees, htrees⟩ := ParsingTable.trees_of_step_accepted hs
  refine ⟨h.full tree (htrees ▸ List.mem_cons_self), forestLeaves trees.reverse, ?_⟩
  rw [← h.leaves, htrees, List.reverse_cons, forestLeaves_append, forestLeaves, forestLeaves, List.append_nil]

/-- **Any table conserves tokens** that never shifts the end marker. Wherever its moves lead, with whatever they have
shifted on the way, tokens are conserved, and one token more has been taken unless the stream is over. What a parser
returns is full, and its leaves are a suffix of what was shifted. -/
theorem conserves_any_table (hend : t.NeverShiftsEnd) (tokens : List (Token τ)) :
    (∀ c, t.Leads (.initial (tokens.map some)) c → ∃ shifted, t.Shifts (.initial (tokens.map some)) shifted c) ∧
    (∀ shifted c, t.Shifts (.initial (tokens.map some)) shifted c → Conserves (tokens.map some) shifted c ∧
      c.taken (tokens.map some) = if c.input = [] then shifted.length else shifted.length + 1) ∧
    (∀ n (tree : Tree α τ) k, t.parse? n (tokens.map some) = some (.accepted tree, k) →
      ∃ shifted c, t.Shifts (.initial (tokens.map some)) shifted c ∧ t.step c = .stop (.accepted tree) ∧
        k = c.taken (tokens.map some) ∧ tree.IsFull ∧ tree.leaves <:+ shifted) := by
  refine ⟨fun c => ParsingTable.Leads.exists_shifts, fun shifted c h => ?_, fun n tree k h => ?_⟩
  · have hc := conserves_of_shifts hend h
    exact ⟨hc, hc.taken_eq⟩
  · obtain ⟨⟨_, c⟩, hr, he⟩ := Option.map_eq_some_iff.mp h
    obtain ⟨rfl, rfl⟩ := Prod.mk.inj he
    obtain ⟨hl, hstop⟩ := ParsingTable.leads_of_run hr
    obtain ⟨shifted, hshifts⟩ := hl.exists_shifts
    exact ⟨shifted, c, hshifts, hstop, rfl, (conserves_of_shifts hend hshifts).accepted hstop⟩

namespace Sums

/-- A table that numbers its states as it likes, counts its productions from the end, and accepts before the end. -/
def wayward : ParsingTable Unit where
  grammar := grammar
  stateCount := 0
  action := ⟨[((0, .terminal one), .shift 7), ((7, .terminal one), .shift 7), ((7, .terminal plus), .reduce (-1)),
    ((-3, .terminal plus), .accept)], by decide⟩
  goto := ⟨[((7, .nonterminal sum), -3)], by decide⟩
  conflicts := []
  descriptions := []

/-- Two ones and a sign. -/
def onesAndSign : List (Token String) := ["1", "1", "+"].map Token.ofName

theorem neverShiftsEnd_wayward : wayward.NeverShiftsEnd := by
  intro i j h
  have hmem := OrderedMap.get?_eq_some_iff.mp h
  simp [wayward, endMark, one, plus] at hmem

/-- The parser that has shifted two ones, reduced the second, and is about to return it. -/
def atSign : Config Unit String := ⟨-3, [7, 0], [unit, .leaf (some (.ofName "1"))], [some (.ofName "+")]⟩

/-- The wayward table returns the second of two ones. It has shifted both, and taken the sign as well. -/
theorem accepted_wayward :
    wayward.NeverShiftsEnd ∧
    (wayward.Shifts (.initial (onesAndSign.map some)) ((onesAndSign.take 2).map some) atSign ∧
      Conserves (onesAndSign.map some) ((onesAndSign.take 2).map some) atSign ∧
      atSign.taken (onesAndSign.map some) = 3) ∧
    wayward.parse? 4 (onesAndSign.map some) = some (.accepted unit, 3) ∧
      ∃ shifted c, wayward.Shifts (.initial (onesAndSign.map some)) shifted c ∧ unit.leaves <:+ shifted := by
  have hshifts : wayward.Shifts (.initial (onesAndSign.map some)) ((onesAndSign.take 2).map some) atSign :=
    (((ParsingTable.Shifts.refl (t := wayward) (c := .initial (onesAndSign.map some))).move rfl).move rfl).move rfl
  have h : wayward.parse? 4 (onesAndSign.map some) = some (.accepted unit, 3) := by rfl
  obtain ⟨-, hall, hacc⟩ := conserves_any_table neverShiftsEnd_wayward onesAndSign
  obtain ⟨hc, htaken⟩ := hall _ atSign hshifts
  obtain ⟨shifted, c, hs, -, -, -, hsuffix⟩ := hacc 4 unit 3 h
  exact ⟨neverShiftsEnd_wayward, ⟨hshifts, hc, htaken⟩, h, shifted, c, hs, hsuffix⟩

end Sums

end CanonicalLR
