import CanonicalLR.Proofs.Parse.Prefix
import CanonicalLR.Proofs.Table.Prediction

/-!
# Errors are reported as early as they can be

Let every non-terminal derive something, and let there be no conflicts. Then the parser of the canonical table reports
a syntax error before it moves on the token in question: no sentence begins with the tokens that it has shifted and this
token, and it has not even reduced on it. The terminals that are reported are all that continue the tokens
(`syntaxError_of_run`).

The invariant of the run (`Lossless`) is that the text along which the parser stands keeps the sentences with the
lookahead next, and all sentences as long as there was no reduction on the lookahead. A reduction on the lookahead is
expected, so the lookahead continues what was shifted. So where it does not there was none, no sentence was lost, and
what is expected is complete.
-/

namespace CanonicalLR

variable {α τ : Type} {g : Grammar α} {stream : List (Option (Token τ))} {c c' : Config α τ} {xs : List Symbol}
  {u : List Terminal} {t : Terminal}

/-! ## No sentence is lost -/

/-- The parser has lost no sentence that begins with the tokens `u` it has shifted and goes on with its lookahead, and
none at all if no parser on the way has reduced on this lookahead. -/
structure Lossless (g : Grammar α) (stream : List (Option (Token τ))) (c : Config α τ) (xs : List Symbol)
    (u : List Terminal) : Prop where
  along : Along g c xs
  spells : Spells (forestLeaves c.trees.reverse) u
  keeps : ∀ t, (canonicalAutomaton g).table.classify c.lookahead = .ok (some t) → g.Keeps u xs.reverse t
  keeps_all : (∀ d : Config α τ, (canonicalAutomaton g).table.Leads (.initial stream) d → d.input = c.input →
    (canonicalAutomaton g).table.reduction? d = none) → ∀ t, g.Keeps u xs.reverse t

theorem lossless_initial : Lossless g stream (.initial stream) [] [] where
  along := along_initial
  spells := .nil
  keeps _ _ := Grammar.keeps_nil
  keeps_all _ _ := Grammar.keeps_nil

theorem Lossless.afterShift {j : Int} (h : Lossless g stream c xs u)
    (ht : (canonicalAutomaton g).table.classify c.lookahead = .ok (some t)) {token : Token τ}
    (hl : c.lookahead = some token) (hc : Along g (c.afterShift j) (.terminal t :: xs)) :
    Lossless g stream (c.afterShift j) (.terminal t :: xs) (u ++ [t]) := by
  have hkeeps : ∀ s, g.Keeps (u ++ [t]) (Symbol.terminal t :: xs).reverse s := by
    intro s
    rw [List.reverse_cons]
    exact (h.keeps t ht).shift
  refine ⟨hc, ?_, fun s _ => hkeeps s, fun _ => hkeeps⟩
  rw [hl] at ht
  rw [leaves_afterShift, hl]
  exact h.spells.append (.cons (ParsingTable.classify_some_iff.mp ht).2 .nil)

theorem Lossless.afterReduce (hg : g.IsDeterministic) {p : Production α} {ys : List Symbol} {j i : Int}
    {is : List Int} (h : Lossless g stream c (p.body.reverse ++ ys) u)
    (hl : (canonicalAutomaton g).table.Leads (.initial stream) c)
    (hr : (canonicalAutomaton g).table.reduction? c = some p)
    (hc : Along g (c.afterReduce p j i is) (.nonterminal p.head :: ys)) :
    Lossless g stream (c.afterReduce p j i is) (.nonterminal p.head :: ys) u := by
  obtain ⟨t, ht, hp, hit⟩ := h.along.item_mem_of_reduction hr
  have hxs : (p.body.reverse ++ ys).reverse = ys.reverse ++ p.body := by simp
  refine ⟨hc, ?_, fun s hs => ?_, fun hnone => ?_⟩
  · rw [leaves_afterReduce]
    exact h.spells
  · have hst : s = t := Option.some.inj (Except.ok.inj (hs.symm.trans ht))
    have hkeeps := h.keeps t ht
    rw [hxs] at hkeeps hit
    rw [hst, List.reverse_cons]
    exact hkeeps.reduce hg hp hit
  · -- this very move was a reduction on the lookahead
    rw [hnone c hl rfl] at hr
    cases hr

/-- **A chain of moves loses no sentence.** -/
theorem exists_lossless_of_leads (hg : g.IsDeterministic)
    (hl : (canonicalAutomaton g).table.Leads (.initial stream) c) : ∃ xs u, Lossless g stream c xs u := by
  induction hl with
  | refl => exact ⟨[], [], lossless_initial⟩
  | tail hl hs ih =>
    obtain ⟨xs, u, h⟩ := ih
    rcases h.along.next_cases hs with ⟨t, j, token, ht, htoken, _, rfl, hc⟩ | ⟨p, _, ys, j, i, is, rfl, hred, rfl, hc⟩
    · exact ⟨_, _, h.afterShift ht htoken hc⟩
    · exact ⟨_, _, h.afterReduce hg hl hred hc⟩

/-! ## Lookaheads without an action -/

/-- What continues the shifted tokens and is kept is expected. -/
theorem Lossless.mem_expected (hg : g.IsDeterministic) (h : Lossless g stream c xs u)
    (hk : g.Keeps u xs.reverse t) (ht : g.Continues u t) : t ∈ (canonicalAutomaton g).table.expected c.state := by
  obtain ⟨it, hit⟩ := h.along.trail.exists_item
  exact h.along.mem_expected_iff.mpr (hk.expects hg hit ht)

/-- A lookahead without an action is not expected. -/
theorem ParsingTable.notMem_expected {table : ParsingTable α} {i : Int} {o : Option (Token τ)}
    (ht : table.classify o = .ok (some t)) (ha : table.actionOn i o = .ok none) : t ∉ table.expected i := by
  intro hm
  obtain ⟨-, act, hact⟩ := mem_expected_iff.mp hm
  have hsome := actionOn_eq_some_iff.mpr ⟨t, ht, hact⟩
  rw [ha] at hsome
  cases hsome

/-- A lookahead on which the parser reduces continues what was shifted. -/
theorem Along.continues_of_reduction (hd : g.underivable = []) (h : Along g c xs)
    (hu : Spells (forestLeaves c.trees.reverse) u) {p : Production α}
    (hr : (canonicalAutomaton g).table.reduction? c = some p) :
    ∃ t, (canonicalAutomaton g).table.classify c.lookahead = .ok (some t) ∧ g.Continues u t := by
  obtain ⟨t, ht, hp, hit⟩ := h.item_mem_of_reduction hr
  have he : g.Expects xs.reverse t := .inl ⟨p, hp, hit⟩
  obtain ⟨v, hv, hy⟩ := h.trees.exists_yields
  obtain rfl := hu.unique hv
  exact ⟨t, ht, he.continues hd hy⟩

/-- A lookahead without an action does not continue what was shifted. -/
theorem Lossless.not_continues (hg : g.IsDeterministic) (h : Lossless g stream c xs u)
    (ha : (canonicalAutomaton g).table.actionOn c.state c.lookahead = .ok none)
    (ht : (canonicalAutomaton g).table.classify c.lookahead = .ok (some t)) : ¬g.Continues u t := by
  intro hcont
  exact ParsingTable.notMem_expected ht ha (h.mem_expected hg (h.keeps t ht) hcont)

/-- No parser on the way to `c` has reduced on the lookahead of `c` if it does not continue what was shifted. -/
theorem reduction?_eq_none_of_not_continues (hd : g.underivable = [])
    (hc : (canonicalAutomaton g).table.Leads (.initial stream) c)
    (hc' : (canonicalAutomaton g).table.Leads (.initial stream) c') (hin : c'.input = c.input)
    (hu : Spells (forestLeaves c.trees.reverse) u)
    (hno : ∀ t, (canonicalAutomaton g).table.classify c.lookahead = .ok (some t) → ¬g.Continues u t) :
    (canonicalAutomaton g).table.reduction? c' = none := by
  cases hred : (canonicalAutomaton g).table.reduction? c' with
  | none => rfl
  | some p =>
    obtain ⟨-, hstream⟩ := exists_along_of_leads hc
    obtain ⟨⟨ys, hy⟩, hstream'⟩ := exists_along_of_leads hc'
    rw [hin] at hstream'
    have hleaves := List.append_cancel_right (hstream'.trans hstream.symm)
    obtain ⟨t, ht, hcont⟩ := hy.continues_of_reduction hd (hleaves ▸ hu) hred
    rw [Config.lookahead, hin] at ht
    exact absurd hcont (hno t ht)

/-- **A syntax error is reported before any move on its token, and with all terminals that continue the tokens before
it.** -/
theorem syntaxError_of_run (hd : g.underivable = []) (hc : (canonicalAutomaton g).table.conflicts = [])
    {tokens : List (Token τ)} {n : Nat} {o : Option (Token τ)} {i : Int} {ts : List Terminal} {c : Config α τ}
    (hr : (canonicalAutomaton g).table.run n (.initial (tokens.map some)) = some (.syntaxError o i ts, c)) :
    ∃ shifted u, tokens.map some = shifted ++ c.input ∧ Spells shifted u ∧ o = c.lookahead ∧
      (∀ a v, StandsFor o a → ¬g.IsSentence (u ++ a :: v)) ∧
      (o = none → c.input = [] ∧ ¬g.IsSentence u) ∧
      (∀ d : Config α τ, (canonicalAutomaton g).table.Leads (.initial (tokens.map some)) d → d.input = c.input →
        (canonicalAutomaton g).table.reduction? d = none) ∧
      ∀ t, g.Continues u t → t ∈ ts := by
  have hg := conflicts_eq_nil_iff_isDeterministic.mp hc
  obtain ⟨hl, hs⟩ := ParsingTable.leads_of_run hr
  obtain ⟨rfl, rfl, rfl, ha⟩ := ParsingTable.actionOn_of_step_syntaxError hs
  obtain ⟨xs, u, h⟩ := exists_lossless_of_leads hg hl
  obtain ⟨-, hstream⟩ := exists_along_of_leads hl
  have hno : ∀ t, (canonicalAutomaton g).table.classify c.lookahead = .ok (some t) → ¬g.Continues u t :=
    fun t ht => h.not_continues hg ha ht
  have hnone : ∀ d : Config α τ, (canonicalAutomaton g).table.Leads (.initial (tokens.map some)) d →
      d.input = c.input → (canonicalAutomaton g).table.reduction? d = none :=
    fun d hld hin => reduction?_eq_none_of_not_continues hd hl hld hin h.spells hno
  refine ⟨_, u, hstream.symm, h.spells, rfl, fun a v ho hv => ?_, fun ho => ?_, hnone, fun t ht => ?_⟩
  · have hcont : g.Continues u a := Grammar.continues_iff.mpr ⟨a :: v, hv, rfl⟩
    refine hno a ?_ hcont
    cases hl : c.lookahead with
    | none =>
      rw [hl] at ho
      cases ho
    | some token =>
      rw [hl] at ho
      exact ParsingTable.classify_some_iff.mpr ⟨hv.mem_terminals (by simp), ho⟩
  · have hin : ∀ o ∈ c.input, o.isSome := by
      intro o hm
      have hm' : o ∈ tokens.map some := hstream ▸ List.mem_append_right _ hm
      obtain ⟨token, _, rfl⟩ := List.mem_map.mp hm'
      rfl
    refine ⟨Config.input_eq_nil ho hin, fun hsent => ?_⟩
    refine hno endMark (by rw [ho]; rfl) (Grammar.continues_iff.mpr ⟨[], ?_, rfl⟩)
    rwa [List.append_nil]
  · exact h.mem_expected hg (h.keeps_all hnone t) ht

namespace Brackets

/-- A list without items, and a bracket too many. -/
def surplus : List (Token String) := ["(", ")", ")"].map Token.ofName

/-- The parser that has read the list and looks at the last bracket. -/
def afterList : Config Unit String :=
  ⟨7, [4, 2, 0], [.leaf (some (.ofName ")")), .node ⟨⟨items, []⟩, 2, none⟩ [], .leaf (some (.ofName "("))],
    [some (.ofName ")")]⟩

set_option maxRecDepth 20000 in
/-- No list begins with a list and a closing bracket. The parser sees this before it reduces to a list. -/
theorem syntaxError_surplus :
    grammar.underivable = [] ∧ (canonicalAutomaton grammar).table.conflicts = [] ∧
      (canonicalAutomaton grammar).table.run 4 (.initial (surplus.map some)) =
        some (.syntaxError (some (.ofName ")")) 7 [endMark], afterList) ∧
      ∀ v, ¬grammar.IsSentence ([opening, closing] ++ closing :: v) := by
  have hd : grammar.underivable = [] := by decide
  have hc : (canonicalAutomaton grammar).table.conflicts = [] := by decide +kernel
  have hr : (canonicalAutomaton grammar).table.run 4 (.initial (surplus.map some)) =
      some (.syntaxError (some (.ofName ")")) 7 [endMark], afterList) := by rfl
  obtain ⟨shifted, u, hs, hu, -, hno, -⟩ := syntaxError_of_run hd hc hr
  have hs' : [some (Token.ofName "("), some (Token.ofName ")")] ++ afterList.input = shifted ++ afterList.input := hs
  obtain rfl := List.append_cancel_right hs'
  obtain rfl := hu.unique (v := [opening, closing]) (.cons rfl (.cons rfl .nil))
  exact ⟨hd, hc, hr, fun v => hno closing v rfl⟩

end Brackets

end CanonicalLR
