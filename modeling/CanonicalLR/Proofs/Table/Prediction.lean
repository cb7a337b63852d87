import CanonicalLR.Proofs.Automaton.Continuation
import CanonicalLR.Proofs.Table.Knuth

/-!
# Every continuation is expected

In a deterministic grammar the way back from a sentence to the augmented start is forced: behind a text with items,
either the next handle ends where the text ends, or the next terminal is shifted
(`IsDeterministic.exists_handle_or_shift`).

So a text that has been read as symbols from the left loses no sentence. `Keeps` says this of the sentences in which a
given terminal comes next. It holds before anything is read, it holds for all terminals after a shift (`Keeps.shift`),
and a reduction preserves it for its lookahead (`Keeps.reduce`). Where it holds, every terminal that continues what has
been read is expected (`Keeps.expects`).
-/

namespace CanonicalLR.Grammar

variable {α : Type} {g : Grammar α} {γ δ : List Symbol} {u w : List Terminal} {t : Terminal} {p : Production α}

/-- Of the sentences that begin with `u` and have `t` next, none is lost when the text stands for `u`. -/
def Keeps (g : Grammar α) (u : List Terminal) (γ : List Symbol) (t : Terminal) : Prop :=
  ∀ w, g.IsSentence (u ++ w) → w.headD endMark = t →
    g.RightDerives [.nonterminal augmentedStart] (γ ++ w.map Symbol.terminal)

/-- Before anything is read all sentences are kept. -/
theorem keeps_nil : g.Keeps [] [] t := fun _ hw _ => isSentence_iff.mp hw

/-- After a terminal is shifted, all sentences are kept that were kept for it. -/
theorem Keeps.shift {s : Terminal} (h : g.Keeps u γ s) : g.Keeps (u ++ [s]) (γ ++ [.terminal s]) t := by
  intro w hw _
  have hs : g.IsSentence (u ++ s :: w) := by simpa using hw
  simpa using h (s :: w) hs rfl

section Deterministic

variable (hg : g.IsDeterministic)
include hg

/-- On the way back to the augmented start the last handle ends where a text with items ends, or the next terminal is
shifted. -/
theorem IsDeterministic.exists_handle_or_shift {it : Item} (hit : it ∈ itemsAfter g γ)
    (h : g.RightDerives [.nonterminal augmentedStart] (γ ++ w.map Symbol.terminal)) :
    (∃ p ∈ g.productions, ∃ δ, γ = δ ++ p.body ∧ g.ReachesLast δ p.head w) ∨
      ∃ t v, w = t :: v ∧ .terminal t ∈ (itemsAfter g γ).nextSymbols g := by
  rcases h.eq_or_last_step with he | ⟨p, hp, δ, v, hr, he⟩
  · -- the augmented start itself is in no text with items, nor is it a terminal
    have hm : .nonterminal augmentedStart ∈ γ ++ w.map Symbol.terminal := by
      rw [he]
      exact List.mem_cons_self
    rcases List.mem_append.mp hm with hm | hm
    · exact absurd hm (augmentedStart_notMem_of_item_mem hit)
    · obtain ⟨s, _, hs⟩ := List.mem_map.mp hm
      cases hs
  · rcases hg.handle_or_shift hit hp hr he with ⟨hγ, rfl⟩ | hs
    · exact .inl ⟨p, hp, δ, hγ, hr⟩
    · exact .inr hs

/-- A reduction keeps the sentences in which its lookahead comes next. -/
theorem Keeps.reduce (hp : p ∈ g.productions) (hit : p.item p.body.length t ∈ itemsAfter g (δ ++ p.body))
    (h : g.Keeps u (δ ++ p.body) t) : g.Keeps u (δ ++ [.nonterminal p.head]) t := by
  rintro w hw rfl
  rcases hg.exists_handle_or_shift hit (h w hw rfl) with ⟨q, hq, ε, he, hr⟩ | ⟨s, v, rfl, hs⟩
  · have hqi := item_mem_itemsAfter_of_handle hq hr
    rw [← he] at hqi
    obtain rfl := hg.completion_unique _ p hp q hq _ hit hqi
    obtain rfl := List.append_cancel_right he
    rw [List.append_assoc]
    exact hr
  · exact absurd hs (hg.not_shift _ p hp s hit)

/-- **A terminal that continues what was read is expected if its sentences are kept.** -/
theorem Keeps.expects {it : Item} (hit : it ∈ itemsAfter g γ) (h : g.Keeps u γ t) (ht : g.Continues u t) :
    g.Expects γ t := by
  obtain ⟨w, hw, rfl⟩ := continues_iff.mp ht
  rcases hg.exists_handle_or_shift hit (h w hw rfl) with ⟨p, hp, δ, rfl, hr⟩ | ⟨s, v, rfl, hs⟩
  · exact .inl ⟨p, hp, item_mem_itemsAfter_of_handle hp hr⟩
  · exact .inr hs

end Deterministic

end CanonicalLR.Grammar
