import CanonicalLR.Proofs.Parse.Labels
import CanonicalLR.Proofs.Parse.Termination
import CanonicalLR.Proofs.Table.Ascent

/-!
# Runs that end whichever way conflicts are resolved

Without cycles and hidden left recursion all texts settle, whichever reductions are made. So a parser comes to an end on
every stream, with the table of the canonical automaton and with every table that resolves the conflicts in another way
(`parse?_ends_of_resolves`). Ordinary left recursion does no harm.
-/

namespace CanonicalLR

variable {α τ : Type} {g : Grammar α}

/-- **Without cycles and hidden left recursion the parser comes to an end on every stream**, however the conflicts of
the canonical automaton are resolved: its own table resolves them, and so may others. -/
theorem parse?_ends_of_hasNoCycle (h : g.HasNoCycle) (hh : g.HasNoHiddenLeftRecursion) :
    (canonicalAutomaton g).table.Resolves g ∧
      ∀ table : ParsingTable α, table.Resolves g → ∀ stream : List (Option (Token τ)),
        (∃ n r, table.parse? n stream = some r) ∧
          ¬∃ f : Nat → Config α τ, table.Leads (.initial stream) (f 0) ∧ ∀ k, table.step (f k) = .next (f (k + 1)) := by
  refine ⟨resolves_canonical, fun table ht stream => ?_⟩
  have hends : table.Ends (.initial stream : Config α τ) := Trail.start.ends ht (Grammar.settles_of_hasNoCycle h hh)
  exact ⟨hends.exists_parse?, hends.not_leads_endless⟩

/-- Without cycles and hidden left recursion a parser accepts tokens with names or meets a syntax error. -/
theorem accepted_or_syntaxError (h : g.HasNoCycle) (hh : g.HasNoHiddenLeftRecursion) {tokens : List (Token τ)}
    (hn : ∀ token ∈ tokens, token.name?.isSome) :
    ∃ n k, (∃ tree, (canonicalAutomaton g).table.parse? n (tokens.map some) = some (.accepted tree, k)) ∨
      ∃ token state expected, (canonicalAutomaton g).table.parse? n (tokens.map some) =
        some (.syntaxError token state expected, k) := by
  obtain ⟨n, ⟨o, c⟩, hr⟩ : (canonicalAutomaton g).table.Ends (.initial (tokens.map some)) :=
    along_initial.ends (Grammar.settles_of_hasNoCycle h hh)
  have hparse : (canonicalAutomaton g).table.parse? n (tokens.map some) = some (o, c.taken (tokens.map some)) := by
    rw [ParsingTable.parse?, hr]
    rfl
  cases o with
  | accepted tree => exact ⟨n, _, .inl ⟨tree, hparse⟩⟩
  | syntaxError token state expected => exact ⟨n, _, .inr ⟨token, state, expected, hparse⟩⟩
  | fault f => exact absurd hr (not_fault_of_run hn)

namespace SignedSums

open Sums (plus one sum)

def minus : Terminal := ⟨"-", by decide⟩

def sign : NonTerminal := ⟨"sign", by decide⟩

def signs : NonTerminal := ⟨"signs", by decide⟩

/-- The rules `sum → sum + sum`, `sum → signs 1`, `signs → sign sign`, `sign → -` and an empty one for `sign`. A sum of
sums may be read in two ways, a single sign too, and `sum` is left recursive. -/
def grammar : Grammar Unit :=
  .make ⟨[plus, minus, one], by decide, by decide⟩
    ⟨[(⟨sum, [sum, plus, sum]⟩, none), (⟨sum, [signs, one]⟩, none), (⟨signs, [sign, sign]⟩, none),
      (⟨sign, [minus]⟩, none), (⟨sign, []⟩, none)], by decide, by decide⟩
    sum (by decide) (by decide)

/-- A sum, then its signs, then a single sign. -/
def rank (n : NonTerminal) : Nat :=
  if n = augmentedStart then 3 else if n = sum then 2 else if n = signs then 1 else 0

def stream : List (Option (Token String)) :=
  ["-", "1", "+", "1", "+", "-", "-", "1"].map fun name => some (.ofName name)

set_option maxRecDepth 20000 in
/-- Conflicts, empty bodies and left recursion keep no run from ending. -/
theorem parse?_signedSums :
    grammar.HasNoCycle ∧ grammar.HasNoHiddenLeftRecursion ∧ (canonicalAutomaton grammar).table.conflicts ≠ [] ∧
      ∃ n r, (canonicalAutomaton grammar).table.parse? n stream = some r := by
  have halone : grammar.FallsAlone rank := by decide
  have hbehind : grammar.FallsBehind rank := by decide
  have hc : grammar.HasNoCycle := Grammar.hasNoCycle_of_fallsAlone halone
  have hh : grammar.HasNoHiddenLeftRecursion := Grammar.hasNoHiddenLeftRecursion_of_fallsBehind hbehind
  obtain ⟨hr, hends⟩ := parse?_ends_of_hasNoCycle hc hh
  exact ⟨hc, hh, by decide +kernel, (hends _ hr stream).1⟩

end SignedSums

end CanonicalLR
