import CanonicalLR.Proofs.Automaton.Viable

/-!
# Continuations to a sentence

A sentence is a text of terminals that the start symbol derives. A terminal continues a text of terminals if some
sentence begins with the text and the terminal; the end marker continues the sentences themselves (`Grammar.Continues`).

Let every non-terminal derive something. Then whatever is found along a text of symbols can be completed to a sentence,
whichever terminals the symbols yield (`exists_isSentence_of_item_mem`), and the terminals on which a production can be
completed or a shift be made there continue what they yield (`Expects.continues`).
-/

namespace CanonicalLR.Grammar

variable {α : Type} {g : Grammar α}

/-! ## Sentences -/

/-- A sentence is a text of terminals that the start symbol derives. -/
def IsSentence (g : Grammar α) (w : List Terminal) : Prop :=
  g.Derives [.nonterminal g.start] (w.map Symbol.terminal)

/-- Some sentence begins with the text and the terminal, or the text is a sentence and the terminal the end marker. -/
def Continues (g : Grammar α) (u : List Terminal) (t : Terminal) : Prop :=
  if t = endMark then g.IsSentence u else ∃ v, g.IsSentence (u ++ t :: v)

/-- Sentences are what the augmented start derives. -/
theorem isSentence_iff {w : List Terminal} :
    g.IsSentence w ↔ g.RightDerives [.nonterminal augmentedStart] (w.map Symbol.terminal) := by
  rw [IsSentence, derives_iff_yields, rightDerives_iff_yields]
  constructor
  · intro h
    exact h.head augmented_mem
  · intro h
    generalize hs : [Symbol.nonterminal augmentedStart] = ss at h
    cases h with
    | nil => cases hs
    | terminal _ => cases hs
    | nonterminal hp hb hnil =>
      obtain ⟨hn, rfl⟩ := List.cons.inj hs
      rw [(head_eq_augmentedStart_iff hp).mp (Symbol.nonterminal.inj hn).symm] at hb
      cases hnil
      rw [List.append_nil]
      exact hb

/-- Sentences are made of declared terminals. -/
theorem IsSentence.mem_terminals {w : List Terminal} (h : g.IsSentence w) {t : Terminal} (ht : t ∈ w) :
    t ∈ g.vocabulary.terminals := by
  have hstart : ∀ s ∈ [Symbol.nonterminal g.start], Defined g.vocabulary g.rulebook s :=
    fun s hs => defined_of_mem_body augmented_mem hs
  exact h.defined hstart (.terminal t) (List.mem_map_of_mem ht)

/-- A terminal continues a text if it comes next in some sentence that begins with the text. -/
theorem continues_iff {u : List Terminal} {t : Terminal} :
    g.Continues u t ↔ ∃ w, g.IsSentence (u ++ w) ∧ w.headD endMark = t := by
  unfold Continues
  split
  · rename_i ht
    subst ht
    constructor
    · intro h
      exact ⟨[], by rwa [List.append_nil], rfl⟩
    · rintro ⟨w, hw, ht⟩
      cases w with
      | nil => rwa [List.append_nil] at hw
      | cons s w => exact absurd ht (ne_endMark_of_mem_vocabulary (hw.mem_terminals (by simp)))
  · rename_i ht
    constructor
    · rintro ⟨v, hv⟩
      exact ⟨t :: v, hv, rfl⟩
    · rintro ⟨w, hw, hwt⟩
      cases w with
      | nil => exact absurd hwt.symm ht
      | cons s w => exact ⟨w, hwt ▸ hw⟩

/-! ## From items to sentences -/

variable {γ : List Symbol} {u v w : List Terminal} {s t : Terminal}

/-- What stands before a handle, the handle and what stands behind it yield a sentence. -/
theorem ReachesLast.isSentence {δ a b : List Symbol} {p : Production α} (h : g.ReachesLast δ p.head w)
    (hp : p ∈ g.productions) (hb : p.body = a ++ b) (hu : g.Yields (δ ++ a) u) (hv : g.Yields b v) :
    g.IsSentence (u ++ (v ++ w)) := by
  have hy : g.Yields (δ ++ p.body ++ w.map Symbol.terminal) (u ++ v ++ w) := by
    rw [hb, ← List.append_assoc]
    exact (hu.append hv).append (yields_terminals w)
  rw [isSentence_iff, ← List.append_assoc]
  exact (h.tail ⟨p, hp, δ, w, rfl, rfl⟩).trans hy.rightDerives

section Derivable

variable (hd : g.underivable = [])
include hd

/-- A terminal that may follow an item continues what the text yields. -/
theorem continues_of_item_mem {p : Production α} (hp : p ∈ g.productions) {a b : List Symbol} (hb : p.body = a ++ b)
    (hit : p.item a.length s ∈ itemsAfter g γ) (ht : g.MayFollow b s t) (hu : g.Yields γ u) : g.Continues u t := by
  obtain ⟨δ, w, rfl, hr, rfl⟩ := exists_reachesLast_of_item_mem hd hp hb hit
  obtain ⟨v, hv, hvt⟩ := exists_yields_of_mayFollow hd (defined_of_body_eq_append hp hb) ht
  exact continues_iff.mpr ⟨v ++ w, hr.isSentence hp hb hu hv, hvt⟩

/-- **What is expected after a text continues what the text yields.** -/
theorem Expects.continues (h : g.Expects γ t) (hu : g.Yields γ u) : g.Continues u t := by
  rcases h with ⟨p, hp, hit⟩ | hx
  · exact continues_of_item_mem hd hp (List.append_nil _).symm hit (.inr ⟨.nil, rfl⟩) hu
  · obtain ⟨p, hp, δ, a, b, s, _, hb, _, hit⟩ := exists_callsFor_of_mem_nextSymbols hx
    exact continues_of_item_mem hd hp hb hit (mayFollow_of_beginsWith (beginsWith_terminal_iff.mpr rfl)) hu

/-- **What a text yields begins a sentence if there is an item after the text.** -/
theorem exists_isSentence_of_item_mem {it : Item} (hit : it ∈ itemsAfter g γ) (hu : g.Yields γ u) :
    ∃ v, g.IsSentence (u ++ v) := by
  obtain ⟨p, hp, δ, a, b, s, _, hb, rfl, rfl⟩ := mem_itemsAfter_iff_isCalled.mp hit
  obtain ⟨v, hv⟩ := exists_yields_of_body_eq_append hd hp hb
  have ht : g.MayFollow b s ((v ++ [s]).headD endMark) := mayFollow_of_yields (w := [s]) hv
  obtain ⟨w, hw, -⟩ := continues_iff.mp (continues_of_item_mem hd hp hb hit ht hu)
  exact ⟨w, hw⟩

end Derivable

end CanonicalLR.Grammar
