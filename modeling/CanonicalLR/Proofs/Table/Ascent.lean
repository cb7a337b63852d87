import CanonicalLR.Proofs.Automaton.Height
import CanonicalLR.Proofs.Table.Settling

/-!
# Reductions with conflicts

Where there are conflicts a text may have several reductions on a lookahead. It still settles, whichever of them is
made, if there are neither cycles nor hidden left recursion (`settles_of_hasNoCycle`).

A chain of reductions from a text either stays above it, and then what it puts behind the text derives the empty text,
or it escapes below it. What is put behind a text has a bounded length, so a text settles if all that it escapes to
does (`settles_of_escapesSettle`). What escapes to the same length from a text with one more symbol replaces the symbol
by one that derives just it, which cannot go on forever (`settles_of_rise`). All else that escapes is shorter.
-/

namespace CanonicalLR.Grammar

variable {α : Type} {g : Grammar α} {t : Terminal}

/-- What is no longer than the text, and reduced from the text with something behind it that derives the empty text,
settles. -/
def EscapesSettle (g : Grammar α) (t : Terminal) (γ : List Symbol) : Prop :=
  ∀ ζ γ', g.Derives ζ [] → g.ReducesTo t (γ ++ ζ) γ' → γ'.length ≤ γ.length → g.Settles t γ'

/-- What a text is reduced to has an item. -/
theorem ReducesTo.exists_item {γ γ' : List Symbol} (h : g.ReducesTo t γ γ') : ∃ it, it ∈ itemsAfter g γ' := by
  obtain ⟨p, hp, δ, rfl, rfl, hit⟩ := h
  obtain ⟨hp, hne⟩ := mem_tail_iff.mp hp
  obtain ⟨δ', he, hcall⟩ := exists_callsFor_of_item_mem hp (List.append_nil _).symm hit
  obtain rfl := List.append_cancel_right he
  rw [itemsAfter_append_singleton]
  exact exists_mem_goto_iff.mpr (hcall.mem_nextSymbols fun hn => hne ((head_eq_augmentedStart_iff hp).mp hn))

/-- A reduction escapes to what is no longer, or it completes an empty body. -/
theorem ReducesTo.length_le_or {γ γ' : List Symbol} (h : g.ReducesTo t γ γ') :
    γ'.length ≤ γ.length ∨ ∃ n, γ' = γ ++ [.nonterminal n] ∧ g.Derives [.nonterminal n] [] := by
  obtain ⟨p, hp, δ, rfl, rfl, -⟩ := h
  cases hb : p.body with
  | nil =>
    rw [List.append_nil]
    exact .inr ⟨p.head, rfl, hb ▸ derives_body (List.mem_of_mem_tail hp)⟩
  | cons s ss =>
    left
    simp only [List.length_append, List.length_cons, List.length_nil]
    omega

/-- A reduction of a text with a symbol behind it, and then what derives the empty text, escapes below the text or puts
a symbol in the place of the one behind it that derives just that one. -/
theorem ReducesTo.length_le_or_rises {γ ζ γ' : List Symbol} {s : Symbol} (hζ : g.Derives ζ [])
    (h : g.ReducesTo t (γ ++ s :: ζ) γ') (hle : γ'.length ≤ (γ ++ [s]).length) :
    γ'.length ≤ γ.length ∨ ∃ s', γ' = γ ++ [s'] ∧ g.DerivesInSteps [s'] [s] := by
  obtain ⟨p, hp, δ, he, rfl, -⟩ := h
  simp only [List.length_append, List.length_singleton] at hle ⊢
  rcases Nat.lt_or_eq_of_le (Nat.le_of_succ_le_succ hle) with hlt | heq
  · exact .inl hlt
  · obtain ⟨rfl, hb⟩ := List.append_inj he heq.symm
    refine .inr ⟨.nonterminal p.head, rfl, derivesInSteps_of_body (List.mem_of_mem_tail hp) ?_⟩
    rw [← hb]
    exact Derives.append (u := [s]) .refl hζ

/-- **A symbol behind a text cannot rise forever.** The texts with a symbol of a class behind them settle, if the class
holds all that rises above its symbols, if what escapes below the text settles, and if a text settles where all it
escapes to does. -/
theorem settles_of_rise (h : g.HasNoCycle) {γ : List Symbol} {C : Symbol → Prop}
    (hrise : ∀ s s', C s → g.DerivesInSteps [s'] [s] → C s')
    (hbelow : ∀ s ζ γ', C s → g.Derives ζ [] → g.ReducesTo t (γ ++ s :: ζ) γ' → γ'.length ≤ γ.length → g.Settles t γ')
    (habove : ∀ s, C s → g.EscapesSettle t (γ ++ [s]) → g.Settles t (γ ++ [s])) (s : Symbol) (hs : C s) :
    g.Settles t (γ ++ [s]) := by
  induction s using h.wellFounded_risesTo.induction with
  | _ s ih =>
    refine habove s hs fun ζ γ' hζ hr hle => ?_
    rw [List.append_assoc, List.singleton_append] at hr
    rcases hr.length_le_or_rises hζ hle with hlt | ⟨s', rfl, hs'⟩
    · exact hbelow s ζ γ' hs hζ hr hlt
    · exact ih s' hs' (hrise s s' hs hs')

/-- **A text settles if all it escapes to does**, and if what derives the empty text goes on only so far behind it. -/
theorem settles_of_escapesSettle (h : g.HasNoCycle) (k : Nat) :
    ∀ γ, (∀ ζ it, it ∈ itemsAfter g (γ ++ ζ) → g.Derives ζ [] → ζ.length ≤ k) → g.EscapesSettle t γ →
      g.Settles t γ := by
  induction k with
  | zero =>
    intro γ hk hesc
    constructor
    intro γ' hr
    rcases hr.length_le_or with hle | ⟨n, rfl, hn⟩
    · exact hesc [] γ' .refl (by rwa [List.append_nil]) hle
    · obtain ⟨it, hit⟩ := hr.exists_item
      exact absurd (hk _ it hit hn) (Nat.not_succ_le_zero 0)
  | succ k ih =>
    intro γ hk hesc
    constructor
    intro γ' hr
    rcases hr.length_le_or with hle | ⟨n, rfl, hn⟩
    · exact hesc [] γ' .refl (by rwa [List.append_nil]) hle
    · -- behind the text stands one symbol more that derives the empty text, so the bound is one less
      refine settles_of_rise h (C := fun s => g.Derives [s] []) ?_ ?_ ?_ _ hn
      · exact fun s s' hs hs' => hs'.to_reflTransGen.trans hs
      · exact fun s ζ γ' hs hζ hr hle => hesc (s :: ζ) γ' (hs.append hζ) hr hle
      · refine fun s hs hesc => ih _ (fun ζ it hit hζ => ?_) hesc
        rw [List.append_assoc, List.singleton_append] at hit
        exact Nat.le_of_succ_le_succ (hk (s :: ζ) it hit (hs.append hζ))

/-- **Without cycles and hidden left recursion every text settles**, whichever reductions are made. -/
theorem settles_of_hasNoCycle (h : g.HasNoCycle) (hh : g.HasNoHiddenLeftRecursion) (t : Terminal) (γ : List Symbol) :
    g.Settles t γ := by
  have hbound : ∀ γ, g.EscapesSettle t γ → g.Settles t γ := fun γ =>
    settles_of_escapesSettle h g.emptyBound γ fun ζ it hit hζ => hh.length_le_of_item_mem hit hζ
  -- the texts that are no longer settle, so a text with one more symbol does
  have hshort : ∀ k γ, γ.length ≤ k → g.Settles t γ := by
    intro k
    induction k with
    | zero =>
      intro γ hk
      obtain rfl := List.length_eq_zero_iff.mp (Nat.le_zero.mp hk)
      refine hbound [] fun ζ γ' _ hr hle => ?_
      obtain ⟨p, _, δ, _, rfl, _⟩ := hr
      simp at hle
    | succ k ih =>
      intro γ hk
      rcases List.eq_nil_or_concat γ with rfl | ⟨γ, s, rfl⟩
      · exact ih [] (Nat.zero_le k)
      · rw [List.concat_eq_append, List.length_append] at hk
        rw [List.concat_eq_append]
        have hγ : γ.length ≤ k := Nat.le_of_succ_le_succ hk
        exact settles_of_rise h (C := fun _ => True) (fun _ _ _ _ => trivial)
          (fun s ζ γ' _ _ _ hle => ih γ' (hle.trans hγ)) (fun s _ => hbound _) s trivial
  exact hshort γ.length γ (Nat.le_refl _)

end CanonicalLR.Grammar
