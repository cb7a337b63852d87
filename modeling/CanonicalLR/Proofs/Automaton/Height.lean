import CanonicalLR.Proofs.Automaton.Call
import CanonicalLR.Proofs.Grammar.Recursion

/-!
# How far a text goes on with what derives the empty text

A parser that only completes empty bodies stands along longer and longer texts, of which the last part derives the empty
text. Each time the calls along this part leave a body behind a symbol, the calling non-terminal hides the one that is
called. Without hidden left recursion this happens at most as often as there are non-terminals, so the part is no longer
than a bound of the grammar (`HasNoHiddenLeftRecursion.length_le_of_item_mem`).
-/

namespace CanonicalLR.Grammar

variable {α : Type} {g : Grammar α}

/-- The length of all bodies together. -/
def bodyLength (g : Grammar α) : Nat := (bodySymbols g.productions).length

/-- A bound on texts that derive the empty text and have an item behind them. -/
def emptyBound (g : Grammar α) : Nat := g.bodyLength * ((headsOf g.productions).length + 1) + g.bodyLength

theorem length_body_le {p : Production α} (hp : p ∈ g.productions) : p.body.length ≤ g.bodyLength := by
  have hb : p.body ∈ g.productions.map fun p => p.body := List.mem_map_of_mem hp
  rw [bodyLength, bodySymbols, List.flatMap_def]
  exact (List.sublist_flatten_of_mem hb).length_le

theorem length_le_of_body {p : Production α} (hp : p ∈ g.productions) {a b : List Symbol} (hb : p.body = a ++ b) :
    a.length ≤ g.bodyLength := by
  have h := length_body_le hp
  rw [hb, List.length_append] at h
  omega

variable (h : g.HasNoHiddenLeftRecursion)
include h

/-- What is called for behind a long text that derives the empty text is hidden by many non-terminals. -/
theorem HasNoHiddenLeftRecursion.length_le_of_callsFor {δ : List Symbol} {n : NonTerminal} {t : Terminal}
    (hc : g.CallsFor δ n t) :
    ∀ γ ζ, δ = γ ++ ζ → g.Derives ζ [] → ζ.length ≤ g.bodyLength * (g.hiderCount n + 1) := by
  induction hc with
  | start =>
    intro γ ζ he _
    obtain ⟨-, rfl⟩ := List.append_eq_nil_iff.mp he.symm
    exact Nat.zero_le _
  | @child p n δ a b s t hp hcall hb ht ih =>
    intro γ ζ he hζ
    have ha := length_le_of_body hp hb
    rcases List.append_eq_append_iff.mp he with ⟨c, rfl, rfl⟩ | ⟨c, rfl, rfl⟩
    · -- the part begins within the body
      rw [List.length_append] at ha
      exact (Nat.le_of_add_left_le ha).trans (Nat.le_mul_of_pos_right _ (Nat.succ_pos _))
    · -- the part begins before the body
      obtain ⟨hc, hae⟩ := derives_append_nil_iff.mp hζ
      have hlen := ih γ c rfl hc
      rw [List.length_append]
      cases a with
      | nil =>
        have hle := hiderCount_le hp hb hae
        exact hlen.trans (Nat.mul_le_mul_left _ (Nat.succ_le_succ hle))
      | cons x a =>
        have hlt : g.hiderCount p.head + 1 ≤ g.hiderCount n := hiderCount_lt hp hb hae h (List.cons_ne_nil x a)
        have hmul := Nat.mul_le_mul_left g.bodyLength hlt
        rw [Nat.mul_succ]
        omega

/-- **Without hidden left recursion a text goes on only so far with what derives the empty text.** -/
theorem HasNoHiddenLeftRecursion.length_le_of_item_mem {γ ζ : List Symbol} {it : Item}
    (hit : it ∈ itemsAfter g (γ ++ ζ)) (hζ : g.Derives ζ []) : ζ.length ≤ g.emptyBound := by
  obtain ⟨p, hp, δ, a, b, t, hc, hb, he, -⟩ := mem_itemsAfter_iff_isCalled.mp hit
  have ha := length_le_of_body hp hb
  unfold emptyBound
  rcases List.append_eq_append_iff.mp he with ⟨c, rfl, rfl⟩ | ⟨c, rfl, rfl⟩
  · have hlen := h.length_le_of_callsFor hc γ c rfl (derives_append_nil_iff.mp hζ).1
    have hle : g.hiderCount p.head ≤ (headsOf g.productions).length := headCount_le_length
    have hmul := Nat.mul_le_mul_left g.bodyLength (Nat.succ_le_succ hle)
    rw [List.length_append]
    exact Nat.add_le_add (hlen.trans hmul) ha
  · rw [List.length_append] at ha
    omega

end CanonicalLR.Grammar
