import CanonicalLR.Proofs.Parse.Soundness
import CanonicalLR.Proofs.Table.Settling

/-!
# Runs that end

A shift takes a token off the input, so a run is endless only if it reduces forever on one lookahead. Each of these
reductions is one of the text along which the parser stands (`Trail.next_cases`), so a run ends if all texts settle
(`Trail.ends`), whichever way conflicts are resolved. This is so without conflicts, if no blocked text stands behind a
non-terminal that begins with a terminal: then a parser comes to an end on every stream (`parse?_ends`). No text is
blocked in a grammar without underivable non-terminals (`parse?_ends_of_underivable`).

Without the condition it need not. A non-terminal before a blocked text is not called for, so a parser may reduce on a
lookahead that only this non-terminal would shift, and do so forever without a conflict (`Endless.parse?_eq_none`).
-/

namespace CanonicalLR

variable {α τ : Type} {g : Grammar α} {c : Config α τ} {xs : List Symbol}

/-! ## Reductions of a parser -/

/-- A shift takes a token off the input. -/
theorem length_tail_input {token : Token τ} (h : c.lookahead = some token) : c.input.tail.length < c.input.length := by
  conv => rhs; rw [Config.input_eq_cons h]
  exact Nat.lt_succ_self _

section Resolves

variable {table : ParsingTable α} (ht : table.Resolves g)
include ht

/-- **What a parser has done if it goes on**, however conflicts are resolved: it took a token off the input, or reduced
the text along which it stands on its lookahead. -/
theorem Trail.next_cases {c c' : Config α τ} (h : Trail g (c.state :: c.below) xs) (hs : table.step c = .next c') :
    ∃ t ys, table.classify c.lookahead = .ok (some t) ∧ Trail g (c'.state :: c'.below) ys ∧
      (c'.input.length < c.input.length ∨ c'.input = c.input ∧ g.ReducesTo t xs.reverse ys.reverse) := by
  have hmove : ∃ act, table.actionOn c.state c.lookahead = .ok (some act) := by
    unfold ParsingTable.step at hs
    split at hs
    · cases hs
    · cases hs
    all_goals exact ⟨_, ‹_›⟩
  obtain ⟨act, hact⟩ := hmove
  obtain ⟨t, hc, hget⟩ := ParsingTable.actionOn_eq_some_iff.mp hact
  obtain ⟨n, hstate, hn⟩ := h.exists_state
  rw [hstate] at h hget
  rcases h.offered_cases hn (ht.mem_offered n _ t act hn hget) with ⟨j, rfl, hend, hj⟩ |
    ⟨p, hp, ys, rfl, hit, rfl, hx⟩ | ⟨rfl, -⟩
  · simp only [ParsingTable.step, hact] at hs
    cases hs
    refine ⟨t, .terminal t :: xs, hc, hstate ▸ hj, .inl ?_⟩
    cases hl : c.lookahead with
    | none =>
      rw [hl] at hc
      have he : endMark = t := by simpa [ParsingTable.classify] using hc
      exact absurd he.symm hend
    | some token => exact length_tail_input hl
  · have hprod : table.grammar.production? p.number = some p := by
      rw [ht.grammar_eq]
      exact Grammar.production?_number (List.mem_of_mem_tail hp)
    obtain ⟨i, js, j, hdrop, hgoto, hpush⟩ := h.exists_target hx
    rw [← hstate] at hdrop
    rw [← ht.goto_eq] at hgoto
    simp only [ParsingTable.step, hact, hprod, ParsingTable.reduce, hdrop, hgoto] at hs
    cases hs
    refine ⟨t, .nonterminal p.head :: ys, hc, hpush, .inr ⟨rfl, p, hp, ys.reverse, ?_, List.reverse_cons, hit⟩⟩
    rw [List.reverse_append, List.reverse_reverse]
  · simp only [ParsingTable.step, hact] at hs
    split at hs <;> cases hs

/-- A run ends if the text settles on the lookahead, and runs on less input end. -/
theorem Trail.ends_of_settles {t : Terminal} {γ : List Symbol} (hγ : g.Settles t γ) {c : Config α τ}
    (h : Trail g (c.state :: c.below) xs) (hxs : xs.reverse = γ) (hc : table.classify c.lookahead = .ok (some t))
    (hshort : ∀ (c' : Config α τ) (ys : List Symbol), Trail g (c'.state :: c'.below) ys →
      c'.input.length < c.input.length → table.Ends c') : table.Ends c := by
  induction hγ generalizing c xs with
  | intro γ _ ih =>
    cases hs : table.step c with
    | stop o => exact ParsingTable.ends_of_stop hs
    | next c' =>
      apply ParsingTable.ends_of_next hs
      obtain ⟨u, ys, hu, hc', hlt | ⟨hin, hto⟩⟩ := h.next_cases ht hs
      · exact hshort c' ys hc' hlt
      · rw [hc] at hu
        obtain rfl := Option.some.inj (Except.ok.inj hu)
        rw [hxs] at hto
        have hl : c'.lookahead = c.lookahead := by rw [Config.lookahead, Config.lookahead, hin]
        exact ih _ hto hc' rfl (hl ▸ hc) (hin ▸ hshort)

/-- **Runs end where all texts settle**, however conflicts are resolved. -/
theorem Trail.ends (hs : ∀ t γ, g.Settles t γ) {c : Config α τ} (h : Trail g (c.state :: c.below) xs) :
    table.Ends c := by
  generalize hk : c.input.length = k
  induction k using Nat.strong_induction_on generalizing c xs with
  | _ k ih =>
    by_cases hl : ∃ t, table.classify c.lookahead = .ok (some t)
    · obtain ⟨t, hc⟩ := hl
      exact h.ends_of_settles ht (hs t _) rfl hc fun c' ys hc' hlt => ih _ (hk ▸ hlt) hc' rfl
    · -- nothing is done on a lookahead that is no terminal
      cases hstep : table.step c with
      | stop o => exact ParsingTable.ends_of_stop hstep
      | next c' =>
        obtain ⟨t, _, hc, _⟩ := h.next_cases ht hstep
        exact absurd ⟨t, hc⟩ hl

end Resolves

/-- Runs of the canonical table end where all texts settle. -/
theorem Along.ends (hs : ∀ t γ, g.Settles t γ) (h : Along g c xs) : (canonicalAutomaton g).table.Ends c :=
  h.trail.ends resolves_canonical hs

/-- Without conflicts runs end where nothing is blocked. -/
theorem ends_of_isUnblocked (hc : (canonicalAutomaton g).table.conflicts = []) (hb : g.IsUnblocked)
    (stream : List (Option (Token τ))) : (canonicalAutomaton g).table.Ends (.initial stream : Config α τ) :=
  along_initial.ends ((conflicts_eq_nil_iff_isDeterministic.mp hc).settles hb)

/-- **Without conflicts, and where nothing is blocked, the parser comes to an end on every stream.** -/
theorem parse?_ends (hc : (canonicalAutomaton g).table.conflicts = []) (hb : g.IsUnblocked)
    (stream : List (Option (Token τ))) :
    (∃ n r, (canonicalAutomaton g).table.parse? n stream = some r) ∧
      ¬∃ f : Nat → Config α τ, (canonicalAutomaton g).table.Leads (.initial stream) (f 0) ∧
        ∀ k, (canonicalAutomaton g).table.step (f k) = .next (f (k + 1)) := by
  have hends := ends_of_isUnblocked hc hb stream
  exact ⟨hends.exists_parse?, hends.not_leads_endless⟩

/-- Without conflicts and underivable non-terminals the parser comes to an end on every stream: nothing is blocked. -/
theorem parse?_ends_of_underivable (hc : (canonicalAutomaton g).table.conflicts = []) (hu : g.underivable = [])
    (stream : List (Option (Token τ))) :
    (∃ n r, (canonicalAutomaton g).table.parse? n stream = some r) ∧
      ¬∃ f : Nat → Config α τ, (canonicalAutomaton g).table.Leads (.initial stream) (f 0) ∧
        ∀ k, (canonicalAutomaton g).table.step (f k) = .next (f (k + 1)) := by
  have hends := ends_of_isUnblocked hc (Grammar.isUnblocked_of_underivable hu) stream
  exact ⟨hends.exists_parse?, hends.not_leads_endless⟩

namespace Loose

def opening : Terminal := ⟨"a", by decide⟩

def closing : Terminal := ⟨"b", by decide⟩

def again : Terminal := ⟨"c", by decide⟩

def start : NonTerminal := ⟨"S", by decide⟩

def endlessText : NonTerminal := ⟨"L", by decide⟩

def aside : NonTerminal := ⟨"U", by decide⟩

/-- The rules `S → a S b`, `S → c L` and an empty one, `L → c L` and `U → U`: `S` derives the empty text, `L` begins
with `c` but derives no text of terminals, and `U` stands aside. -/
def grammar : Grammar Unit :=
  .make ⟨[opening, closing, again], by decide, by decide⟩
    ⟨[(⟨start, [opening, start, closing]⟩, none), (⟨start, []⟩, none), (⟨start, [again, endlessText]⟩, none),
      (⟨endlessText, [again, endlessText]⟩, none), (⟨aside, [aside]⟩, none)], by decide, by decide⟩
    start (by decide) (by decide)

def stream : List (Option (Token String)) := ["a", "c", "c", "b"].map fun name => some (.ofName name)

set_option maxRecDepth 20000 in
/-- Non-terminals that derive the empty text, derive no text at all or are not reachable keep no run from ending. -/
theorem parse?_stream :
    start ∈ grammar.nullable ∧ grammar.underivable = [endlessText, aside] ∧ grammar.unreachable = [aside] ∧
      (canonicalAutomaton grammar).table.conflicts = [] ∧ grammar.IsUnblocked ∧
      ∃ n r, (canonicalAutomaton grammar).table.parse? n stream = some r := by
  have hc : (canonicalAutomaton grammar).table.conflicts = [] := by decide +kernel
  have hb : grammar.IsUnblocked := by decide +kernel
  exact ⟨by decide, by decide, by decide, hc, hb, (parse?_ends hc hb stream).1⟩

end Loose

/-! ## An endless run -/

namespace Endless

def a : Terminal := ⟨"a", by decide⟩

def t : Terminal := ⟨"t", by decide⟩

def start : NonTerminal := ⟨"S", by decide⟩

def loop : NonTerminal := ⟨"A", by decide⟩

def next : NonTerminal := ⟨"N", by decide⟩

def blocked : NonTerminal := ⟨"C", by decide⟩

/-- The rules `S → A N C`, `A → A`, `A → a`, `N → t` and `C → C a`. A text that `C` derives begins with `C` again, so
it is blocked behind `N`, and `N` is not called for behind `A`. Yet `A` may be followed by what `N` begins with. -/
def grammar : Grammar Unit :=
  .make ⟨[a, t], by decide, by decide⟩
    ⟨[(⟨start, [loop, next, blocked]⟩, none), (⟨loop, [loop]⟩, none), (⟨loop, [a]⟩, none), (⟨next, [t]⟩, none),
      (⟨blocked, [blocked, a]⟩, none)], by decide, by decide⟩
    start (by decide) (by decide)

set_option maxRecDepth 20000 in
example : ¬grammar.IsUnblocked := by decide +kernel

def stream : List (Option (Token String)) := ["a", "t"].map fun name => some (.ofName name)

/-- The tree of `A` that is `a` with `A → A` applied a number of times. -/
def loops : Nat → Tree Unit String
  | 0 => .node ⟨⟨loop, [a]⟩, 3, none⟩ [.leaf (some (.ofName "a"))]
  | k + 1 => .node ⟨⟨loop, [loop]⟩, 2, none⟩ [loops k]

/-- The parser that has such a tree on its stack and looks at `t`. -/
def reducing (k : Nat) : Config Unit String := ⟨2, [0], [loops k], [some (.ofName "t")]⟩

set_option maxRecDepth 20000 in
theorem leads_reducing : (canonicalAutomaton grammar).table.Leads (.initial stream) (reducing 0) :=
  .head (by rfl) (.single (by rfl))

set_option maxRecDepth 20000 in
theorem step_reducing (k : Nat) :
    (canonicalAutomaton grammar).table.step (reducing k) = .next (reducing (k + 1)) := by rfl

set_option maxRecDepth 20000 in
/-- Without a conflict, the parser of the grammar reduces by `A → A` forever. -/
theorem parse?_eq_none :
    (canonicalAutomaton grammar).table.conflicts = [] ∧
      ∀ n, (canonicalAutomaton grammar).table.parse? n stream = none := by
  refine ⟨by decide +kernel, fun n => ?_⟩
  cases hr : (canonicalAutomaton grammar).table.run n (.initial stream) with
  | none => rw [ParsingTable.parse?, hr]; rfl
  | some r =>
    have he : (canonicalAutomaton grammar).table.Ends (.initial stream) := ⟨n, r, hr⟩
    exact absurd step_reducing (he.of_leads leads_reducing).not_endless

end Endless

end CanonicalLR
