import CanonicalLR.Proofs.Parse.Soundness
import Mathlib.Data.List.TakeWhile

/-!
# Where the end marker is read

No token is read as the end marker, whatever its name is (`ParsingTable.classify_eq_endMark_iff`). A parser reads it
where its stream is over, but also at a place of the stream that holds nothing: it does not tell the two apart. So it
reads it at the first such place, and what it returns is a tree of the tokens before (`accepted_at_first_gap`). The
stream is over by then just if it has a token at each place.
-/

namespace CanonicalLR

variable {α τ : Type} {g : Grammar α} {stream : List (Option (Token τ))} {c : Config α τ}

/-- **The end marker is read just where there is no token.** -/
theorem ParsingTable.classify_eq_endMark_iff {t : ParsingTable α} {o : Option (Token τ)} :
    t.classify o = .ok (some endMark) ↔ o = none := by
  cases o with
  | none => exact iff_of_true rfl rfl
  | some token =>
    refine iff_of_false (fun h => ?_) (Option.some_ne_none token)
    exact Grammar.ne_endMark_of_mem_vocabulary (classify_some_iff.mp h).1 rfl

theorem Spells.forall_isSome {tokens : List (Option (Token τ))} {w : List Terminal} (h : Spells tokens w) :
    ∀ o ∈ tokens, o.isSome = true := by
  induction h with
  | nil => exact nofun
  | @cons o t tokens w ht _ ih =>
    intro o' ho
    rcases List.mem_cons.mp ho with rfl | ho
    · cases o' with
      | none => cases ht
      | some token => rfl
    · exact ih o' ho

/-- A list falls apart where its first part has something at each place and the second begins with a gap or is over. -/
theorem takeWhile_dropWhile_of_append {β : Type} {xs ys : List (Option β)} (hx : ∀ o ∈ xs, o.isSome = true)
    (hy : ys.head?.join = none) :
    (xs ++ ys).takeWhile Option.isSome = xs ∧ (xs ++ ys).dropWhile Option.isSome = ys := by
  have hys : ys.takeWhile Option.isSome = [] ∧ ys.dropWhile Option.isSome = ys := by
    cases ys with
    | nil => exact ⟨rfl, rfl⟩
    | cons o ys =>
      obtain rfl : o = none := hy
      exact ⟨rfl, rfl⟩
  rw [List.takeWhile_append_of_pos hx, List.dropWhile_append_of_pos hx, hys.1, hys.2, List.append_nil]
  exact ⟨rfl, rfl⟩

/-- Nothing is left behind the first gap of a list just if it has none. -/
theorem dropWhile_isSome_eq_nil_iff {β : Type} {xs : List (Option β)} :
    xs.dropWhile Option.isSome = [] ↔ none ∉ xs := by
  rw [List.dropWhile_eq_nil_iff]
  constructor
  · intro hall hmem
    cases hall none hmem
  · intro hno o ho
    cases o with
    | none => exact absurd ho hno
    | some x => rfl

/-- A parser that reads the end marker stands behind all tokens before the first gap of its stream, and at that gap. -/
theorem at_first_gap (hl : (canonicalAutomaton g).table.Leads (.initial stream) c) (hn : c.lookahead = none) :
    forestLeaves c.trees.reverse = stream.takeWhile Option.isSome ∧ c.input = stream.dropWhile Option.isSome := by
  obtain ⟨⟨xs, h⟩, hstream⟩ := exists_along_of_leads hl
  obtain ⟨w, hw, -⟩ := h.trees.exists_yields
  obtain ⟨htake, hdrop⟩ := takeWhile_dropWhile_of_append hw.forall_isSome hn
  rw [← hstream]
  exact ⟨htake.symm, hdrop.symm⟩

/-- **The end marker is read at the first gap of the stream**, which is its end just if there is a token at each place.
Wherever a chain of moves reads it, all tokens before the gap were taken, and nothing else. A run that accepts has taken
the gap as well, if there is one, and returns a tree of the tokens before. -/
theorem accepted_at_first_gap :
    (∀ d : Config α τ, (canonicalAutomaton g).table.Leads (.initial stream) d →
      (canonicalAutomaton g).table.classify d.lookahead = .ok (some endMark) → d.lookahead = none ∧
        forestLeaves d.trees.reverse = stream.takeWhile Option.isSome ∧ d.input = stream.dropWhile Option.isSome) ∧
    (∀ n (tree : Tree α τ) (c : Config α τ),
      (canonicalAutomaton g).table.run n (.initial stream) = some (.accepted tree, c) →
        IsTree g (.nonterminal g.start) tree ∧ tree.leaves = stream.takeWhile Option.isSome ∧
          c.input = stream.dropWhile Option.isSome ∧ (c.input = [] ↔ none ∉ stream) ∧
          c.taken stream = min (tree.leaves.length + 1) stream.length) := by
  refine ⟨fun d hl hd => ?_, fun n tree c h => ?_⟩
  · have hnone := ParsingTable.classify_eq_endMark_iff.mp hd
    exact ⟨hnone, at_first_gap hl hnone⟩
  obtain ⟨hl, hstop⟩ := ParsingTable.leads_of_run h
  obtain ⟨⟨xs, halong⟩, hstream⟩ := exists_along_of_leads hl
  obtain ⟨hnone, htrees, htree⟩ := halong.trees_of_accepted hstop
  obtain ⟨hleaves, hinput⟩ := at_first_gap hl hnone
  have hforest : forestLeaves c.trees.reverse = tree.leaves := by simp [htrees, forestLeaves]
  rw [hforest] at hleaves hstream
  have htaken : c.taken stream = min (tree.leaves.length + 1) stream.length := by
    have hlen := congrArg List.length hstream
    rw [List.length_append] at hlen
    rw [Config.taken]
    omega
  exact ⟨htree, hleaves, hinput, hinput ▸ dropWhile_isSome_eq_nil_iff, htaken⟩

namespace Sums

/-- A one, nothing, and a sign. -/
def gapped : List (Option (Token String)) := [some (.ofName "1"), none, some (.ofName "+")]

/-- The parser that has read the one and takes the gap for the end. -/
def atGap : Config Unit String := ⟨1, [0], [unit], [none, some (.ofName "+")]⟩

set_option maxRecDepth 20000 in
/-- A stream need not be over when a run accepts. -/
theorem not_exhausted_of_accepted : ¬∀ n (tree : Tree Unit String) k,
    (canonicalAutomaton grammar).table.parse? n gapped = some (.accepted tree, k) → k = gapped.length := by
  have h : (canonicalAutomaton grammar).table.parse? 3 gapped = some (.accepted unit, 2) := by rfl
  intro hall
  cases hall 3 unit 2 h

set_option maxRecDepth 20000 in
/-- The parser reads the gap as the end marker behind the one, accepts the one there, and leaves the sign. -/
theorem accepted_gapped :
    ((canonicalAutomaton grammar).table.Leads (.initial gapped) atGap ∧
      (canonicalAutomaton grammar).table.classify atGap.lookahead = .ok (some endMark) ∧
      forestLeaves atGap.trees.reverse = gapped.takeWhile Option.isSome) ∧
    (canonicalAutomaton grammar).table.run 3 (.initial gapped) = some (.accepted unit, atGap) ∧
      unit.leaves = gapped.takeWhile Option.isSome ∧ atGap.input = gapped.dropWhile Option.isSome := by
  have h : (canonicalAutomaton grammar).table.run 3 (.initial gapped) = some (.accepted unit, atGap) := by rfl
  have hl := (ParsingTable.leads_of_run h).1
  have hend : (canonicalAutomaton grammar).table.classify atGap.lookahead = .ok (some endMark) :=
    ParsingTable.classify_eq_endMark_iff.mpr rfl
  obtain ⟨-, hstack, -⟩ := accepted_at_first_gap.1 atGap hl hend
  obtain ⟨-, hleaves, hinput, -⟩ := accepted_at_first_gap.2 3 unit atGap h
  exact ⟨⟨hl, hend, hstack⟩, h, hleaves, hinput⟩

end Sums

end CanonicalLR
