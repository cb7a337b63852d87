import CanonicalLR.Proofs.Automaton.Continuation
import CanonicalLR.Proofs.Parse.Soundness

/-!
# What a parser has read begins a sentence

Let every non-terminal derive something, and let there be conflicts or not. Whatever moves a parser of the canonical
table has made, the tokens that it has shifted begin a sentence, and every terminal that it expects next continues them
to a sentence, or finds them to be one in case of the end marker. So the terminals that a syntax error reports are true
(`continuesBy_of_leads`).

The symbols along which the parser stands yield the tokens that it has shifted, and what is expected along them
continues what they yield.
-/

namespace CanonicalLR

variable {α τ : Type} {g : Grammar α} {c : Config α τ} {xs : List Symbol}

/-- The tokens stand for the beginning of a sentence, and each of the terminals continues it. -/
def Grammar.ContinuesBy (g : Grammar α) (tokens : List (Option (Token τ))) (ts : List Terminal) : Prop :=
  ∃ u, Spells tokens u ∧ (∃ v, g.IsSentence (u ++ v)) ∧ ∀ t ∈ ts, g.Continues u t

/-- A parser expects what is expected along its path. -/
theorem Along.mem_expected_iff (h : Along g c xs) {t : Terminal} :
    t ∈ (canonicalAutomaton g).table.expected c.state ↔ g.Expects xs.reverse t := by
  obtain ⟨n, hi, hn⟩ := h.trail.exists_state
  rw [hi]
  exact mem_expected_canonical_iff hn

/-- The tokens that a parser has shifted are continued by what it expects. -/
theorem Along.continuesBy (hd : g.underivable = []) (h : Along g c xs) :
    g.ContinuesBy (forestLeaves c.trees.reverse) ((canonicalAutomaton g).table.expected c.state) := by
  obtain ⟨u, hu, hy⟩ := h.trees.exists_yields
  obtain ⟨it, hit⟩ := h.trail.exists_item
  refine ⟨u, hu, Grammar.exists_isSentence_of_item_mem hd hit hy, fun t ht => ?_⟩
  exact (h.mem_expected_iff.mp ht).continues hd hy

/-- **What is shifted begins a sentence, and what is expected continues it, as do the terminals of a syntax error.** -/
theorem continuesBy_of_leads (hd : g.underivable = []) (stream : List (Option (Token τ))) :
    (∀ c : Config α τ, (canonicalAutomaton g).table.Leads (.initial stream) c →
      ∃ shifted, stream = shifted ++ c.input ∧
        g.ContinuesBy shifted ((canonicalAutomaton g).table.expected c.state)) ∧
    ∀ (n : Nat) (token : Option (Token τ)) (i : Int) (ts : List Terminal) (c : Config α τ),
      (canonicalAutomaton g).table.run n (.initial stream) = some (.syntaxError token i ts, c) →
      i = c.state ∧ ts = (canonicalAutomaton g).table.expected i ∧
        ∃ shifted, stream = shifted ++ c.input ∧ g.ContinuesBy shifted ts := by
  have hleads : ∀ c : Config α τ, (canonicalAutomaton g).table.Leads (.initial stream) c →
      ∃ shifted, stream = shifted ++ c.input ∧
        g.ContinuesBy shifted ((canonicalAutomaton g).table.expected c.state) := by
    intro c hl
    obtain ⟨⟨xs, h⟩, hstream⟩ := exists_along_of_leads hl
    exact ⟨_, hstream.symm, h.continuesBy hd⟩
  refine ⟨hleads, fun n token i ts c hr => ?_⟩
  obtain ⟨hl, hs⟩ := ParsingTable.leads_of_run hr
  obtain ⟨-, rfl, rfl, -⟩ := ParsingTable.actionOn_of_step_syntaxError hs
  exact ⟨rfl, rfl, hleads c hl⟩

namespace Sums

/-- Two ones with no sign between them. -/
def ones : List (Option (Token String)) := ["1", "1"].map fun name => some (.ofName name)

/-- The parser that has read one and looks at the second one. -/
def afterOne : Config Unit String := ⟨2, [0], [.leaf (some (.ofName "1"))], [some (.ofName "1")]⟩

set_option maxRecDepth 20000 in
/-- After a one the sum may go on with a sign or be over, and the parser says so in spite of its conflicts. -/
theorem continuesBy_ones :
    grammar.underivable = [] ∧ (canonicalAutomaton grammar).table.conflicts ≠ [] ∧
      (canonicalAutomaton grammar).table.run 2 (.initial ones) =
        some (.syntaxError (some (.ofName "1")) 2 [plus, endMark], afterOne) ∧
      grammar.ContinuesBy [some (.ofName "1")] [plus, endMark] := by
  have hd : grammar.underivable = [] := by decide
  have hr : (canonicalAutomaton grammar).table.run 2 (.initial ones) =
      some (.syntaxError (some (.ofName "1")) 2 [plus, endMark], afterOne) := by rfl
  obtain ⟨-, -, shifted, hs, h⟩ := (continuesBy_of_leads hd ones).2 2 _ _ _ _ hr
  have hs' : [some (Token.ofName "1")] ++ afterOne.input = shifted ++ afterOne.input := hs
  obtain rfl := List.append_cancel_right hs'
  exact ⟨hd, by decide +kernel, hr, h⟩

end Sums

end CanonicalLR
