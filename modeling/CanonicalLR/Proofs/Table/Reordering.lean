import CanonicalLR.Proofs.Automaton.Translation
import CanonicalLR.Proofs.Grammar.Reordering
import Mathlib.Data.Set.Function

/-!
# States and conflicts under another order of the rules

Where grammars correspond, each state of one canonical automaton is taken to a state of the other, and this is a
bijection between the states (`Translation.Corresponds.bijOn_stateNumber`). A choice between actions is taken to a
choice (`Translation.Corresponds.hasChoice`).

With another order of the rules the symbols stay as they are, so transitions are taken to transitions over the same
symbols (`Grammar.Reorders.isRenumbering`), and conflicts are where they were (`Grammar.Reorders.hasConflict_iff`).
-/

namespace CanonicalLR

variable {α β : Type} {g : Grammar α} {g' : Grammar β} {r r' : Translation} {n m : Nat} {s : ItemSet}
  {γ : List Symbol} {t : Terminal}

/-- A bijection of the states takes one automaton to another over the same symbols, with the production numbers of items
translated. -/
structure Automaton.IsRenumbering (a : Automaton α) (a' : Automaton β) (r : Translation) (f : Nat → Nat) : Prop where
  bijOn : Set.BijOn f {n | n < a.size} {n | n < a'.size}
  first : f 0 = 0
  states : ∀ (n : Nat) (s : ItemSet), a.states[n]? = some s → a'.states[f n]? = some (r.itemSet s)
  transitions : ∀ n < a.size, ∀ x : Symbol, a'.transitions.get? ((f n : Int), .symbol x) =
    (a.transitions.get? ((n : Int), .symbol x)).map fun j => (f j.toNat : Int)

namespace Translation

/-- The number that a translated state has in the canonical automaton of another grammar. -/
def stateNumber (r : Translation) (g : Grammar α) (g' : Grammar β) (n : Nat) : Nat :=
  (canonicalAutomaton g').states.idxOf (r.itemSet ((canonicalAutomaton g).states.getD n .empty))

section Corresponds

variable (h : r.Corresponds r' g g')
include h

/-- A translated state is found at its number. -/
theorem Corresponds.getElem?_stateNumber (hn : (canonicalAutomaton g).states[n]? = some s) :
    (canonicalAutomaton g').states[r.stateNumber g g' n]? = some (r.itemSet s) := by
  rw [stateNumber, List.getD_eq_getElem?_getD, hn, Option.getD_some]
  exact List.getElem?_idxOf (h.itemSet_mem_states (List.mem_of_getElem? hn))

/-- The first state stays the first. -/
theorem Corresponds.stateNumber_zero : r.stateNumber g g' 0 = 0 := by
  have hfirst : r.itemSet (closure g [initialItem]) = closure g' [initialItem] :=
    h.itemSet_itemsAfter (γ := []) fun _ hx => absurd hx List.not_mem_nil
  have hzero := h.getElem?_stateNumber getElem?_states_zero
  rw [hfirst] at hzero
  exact eq_of_getElem?_states hzero getElem?_states_zero

theorem Corresponds.stateNumber_back (hn : n < (canonicalAutomaton g).size) :
    r'.stateNumber g' g (r.stateNumber g g' n) = n := by
  have hs : (canonicalAutomaton g).states[n]? = some (canonicalAutomaton g).states[n] := List.getElem?_eq_getElem hn
  have hback := h.symm.getElem?_stateNumber (h.getElem?_stateNumber hs)
  rw [h.itemSet_back (List.mem_of_getElem? hs)] at hback
  exact eq_of_getElem?_states hback hs

theorem Corresponds.stateNumber_lt (hn : n < (canonicalAutomaton g).size) :
    r.stateNumber g g' n < (canonicalAutomaton g').size :=
  (List.getElem?_eq_some_iff.mp (h.getElem?_stateNumber (List.getElem?_eq_getElem hn))).1

/-- **The states of the two automata correspond one to one.** -/
theorem Corresponds.bijOn_stateNumber :
    Set.BijOn (r.stateNumber g g') {n | n < (canonicalAutomaton g).size} {n | n < (canonicalAutomaton g').size} := by
  have hback : Set.InvOn (r'.stateNumber g' g) (r.stateNumber g g') {n | n < (canonicalAutomaton g).size}
      {n | n < (canonicalAutomaton g').size} :=
    ⟨fun _ hn => h.stateNumber_back hn, fun _ hn => h.symm.stateNumber_back hn⟩
  exact hback.bijOn (fun _ hn => h.stateNumber_lt hn) fun _ hn => h.symm.stateNumber_lt hn

/-- The target of a transition is taken to the target over the translated symbol. -/
theorem Corresponds.get?_transitions_of_some (hn : (canonicalAutomaton g).states[n]? = some s) {x : Symbol} {j : Int}
    (hj : (canonicalAutomaton g).transitions.get? ((n : Int), .symbol x) = some j) :
    (canonicalAutomaton g').transitions.get? ((r.stateNumber g g' n : Int), .symbol (r.symbol x)) =
      some (r.stateNumber g g' j.toNat : Int) := by
  obtain ⟨hx, m, rfl, hm⟩ := (get?_transitions_natCast_iff hn).mp hj
  have hs := List.mem_of_getElem? hn
  have htarget := h.getElem?_stateNumber hm
  rw [h.itemSet_goto hs hx] at htarget
  exact (get?_transitions_natCast_iff (h.getElem?_stateNumber hn)).mpr
    ⟨(h.mem_nextSymbols_iff hs).mpr ⟨x, hx, rfl⟩, _, rfl, htarget⟩

/-- A choice between actions is taken to a choice. -/
theorem Corresponds.hasChoice (hc : g.HasChoice γ t) : g'.HasChoice (γ.map r.symbol) (r.terminal t) := by
  obtain ⟨p, hp, hpi, hother⟩ := hc
  obtain ⟨p', hp', hpe, -, hpi'⟩ := h.maps.exists_completion hp hpi
  refine ⟨p', hp', hpi', ?_⟩
  rcases hother with ⟨q, hq, hne, hqi⟩ | hx
  · obtain ⟨q', hq', hqe, -, hqi'⟩ := h.maps.exists_completion hq hqi
    refine .inl ⟨q', hq', fun he => hne (Grammar.eq_of_toRule_eq hq hp ?_), hqi'⟩
    rw [he, hpe] at hqe
    rw [← h.rule_back hq, ← hqe, h.rule_back hp]
  · exact .inr (h.maps.mem_nextSymbols hx)

end Corresponds

end Translation

/-! ## The same rules in another order -/

namespace Grammar.Reorders

variable {g g' : Grammar α} (h : g'.Reorders g)
include h

/-- Transitions are taken to transitions over the same symbols. -/
theorem get?_transitions (hn : n < (canonicalAutomaton g).size) (x : Symbol) :
    (canonicalAutomaton g').transitions.get? (((g.renumbering g').stateNumber g g' n : Int), .symbol x) =
      ((canonicalAutomaton g).transitions.get? ((n : Int), .symbol x)).map
        fun j => ((g.renumbering g').stateNumber g g' j.toNat : Int) := by
  have hs : (canonicalAutomaton g).states[n]? = some (canonicalAutomaton g).states[n] := List.getElem?_eq_getElem hn
  cases hj : (canonicalAutomaton g).transitions.get? ((n : Int), .symbol x) with
  | some j =>
    have htarget := h.corresponds.get?_transitions_of_some hs hj
    rw [renumbering_symbol] at htarget
    exact htarget
  | none =>
    -- a transition there would be taken back to one here
    refine Option.eq_none_iff_forall_ne_some.mpr fun j' hj' => ?_
    have hback := h.symm.corresponds.get?_transitions_of_some (h.corresponds.getElem?_stateNumber hs) hj'
    rw [renumbering_symbol, h.corresponds.stateNumber_back hn, hj] at hback
    cases hback

/-- **Another order of the rules only renumbers the automaton.** -/
theorem isRenumbering : (canonicalAutomaton g).IsRenumbering (canonicalAutomaton g') (g.renumbering g')
    ((g.renumbering g').stateNumber g g') where
  bijOn := h.corresponds.bijOn_stateNumber
  first := h.corresponds.stateNumber_zero
  states _ _ hn := h.corresponds.getElem?_stateNumber hn
  transitions _ hn := h.get?_transitions hn

theorem hasChoice_iff : g'.HasChoice γ t ↔ g.HasChoice γ t := by
  constructor
  · intro hc
    have hback := h.symm.corresponds.hasChoice hc
    rwa [renumbering_map] at hback
  · intro hc
    have hforth := h.corresponds.hasChoice hc
    rwa [renumbering_map] at hforth

/-- **Conflicts are in the same cells.** -/
theorem hasConflict_iff (hn : n < (canonicalAutomaton g).size) :
    (canonicalAutomaton g).table.HasConflict n t ↔
      (canonicalAutomaton g').table.HasConflict ((g.renumbering g').stateNumber g g' n) t := by
  have hs : (canonicalAutomaton g).states[n]? = some (canonicalAutomaton g).states[n] := List.getElem?_eq_getElem hn
  obtain ⟨γ, he, -, he'⟩ := h.corresponds.exists_itemsAfter (List.mem_of_getElem? hs)
  have hs' := h.corresponds.getElem?_stateNumber hs
  rw [he', renumbering_map] at hs'
  rw [he] at hs
  rw [hasConflict_canonical_iff hs, hasConflict_canonical_iff hs', h.hasChoice_iff]

/-- Another order of the rules brings no conflicts in. -/
theorem conflicts_eq_nil (hc : (canonicalAutomaton g).table.conflicts = []) :
    (canonicalAutomaton g').table.conflicts = [] := by
  rw [conflicts_eq_nil_iff_isDeterministic, isDeterministic_iff] at hc ⊢
  exact fun γ t hchoice => hc γ t (h.hasChoice_iff.mp hchoice)

end Grammar.Reorders

end CanonicalLR
