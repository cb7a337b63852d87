import CanonicalLR.Proofs.Grammar.Analysis

/-!
# Reachable non-terminals

A non-terminal is reachable if bodies lead to it from the start symbol, one after the other. The search for reachable
non-terminals is not cut short, so the unreachable ones are found exactly (`mem_unreachable_iff`). What is reachable is
what the texts derived from the start symbol hold (`isReachable_iff_derives`).
-/

namespace CanonicalLR.Grammar

variable {α : Type} {g : Grammar α} {m n : NonTerminal}

/-- Bodies lead from the start symbol to the non-terminal. -/
def IsReachable (g : Grammar α) : NonTerminal → Prop := Search.Reached (mentions g.productions) [g.start]

theorem mem_mentions_iff :
    m ∈ mentions g.productions n ↔ ∃ p ∈ g.productions, p.head = n ∧ .nonterminal m ∈ p.body := by
  simp only [mentions, productionsOf, List.mem_flatMap, List.mem_filter, decide_eq_true_eq, List.mem_filterMap,
    and_assoc]
  refine exists_congr fun p => and_congr_right fun _ => and_congr_right fun _ => ?_
  constructor
  · rintro ⟨s, hs, hm⟩
    cases s with
    | terminal t => cases hm
    | nonterminal k => exact Option.some.inj hm ▸ hs
  · intro hm
    exact ⟨_, hm, rfl⟩

/-- The search for what a non-terminal leads to is not cut short. -/
theorem covers_mentions : Search.Covers (mentions g.productions)
    (n :: (bodySymbols g.productions).filterMap Symbol.nonterminal?) [n] (symbolBound g.productions) where
  starts_mem x hx := List.mem_cons.mpr (.inl (List.mem_singleton.mp hx))
  next_mem x _ y hy := by
    obtain ⟨p, hp, _, hb⟩ := mem_mentions_iff.mp hy
    refine List.mem_cons_of_mem _ (List.mem_filterMap.mpr ⟨.nonterminal y, ?_, rfl⟩)
    exact List.mem_flatMap.mpr ⟨p, hp, hb⟩
  length_le := Nat.succ_le_succ (List.length_filterMap_le _ _)

theorem mem_reachableFrom_iff : n ∈ reachableFrom g.productions g.start ↔ g.IsReachable n :=
  Search.mem_reach_iff covers_mentions

/-- The unreachable non-terminals are those with rules that are not reachable. -/
theorem mem_unreachable_iff : n ∈ g.unreachable ↔ n ∈ g.nonterminals ∧ ¬g.IsReachable n := by
  rw [unreachable, List.mem_filter]
  refine and_congr_right fun _ => ?_
  rw [decide_eq_true_iff]
  exact not_congr mem_reachableFrom_iff

/-- **A non-terminal is reachable just if a text that the start symbol derives holds it.** -/
theorem isReachable_iff_derives :
    g.IsReachable n ↔ ∃ u, g.Derives [.nonterminal g.start] u ∧ .nonterminal n ∈ u := by
  constructor
  · intro h
    induction h with
    | start h => exact ⟨_, .refl, by simpa using h⟩
    | step _ hm ih =>
      obtain ⟨u, hd, hu⟩ := ih
      obtain ⟨p, hp, rfl, hb⟩ := mem_mentions_iff.mp hm
      obtain ⟨x, y, rfl⟩ := List.append_of_mem hu
      exact ⟨x ++ p.body ++ y, hd.tail ⟨p, hp, x, y, rfl, rfl⟩, by simp [hb]⟩
  · rintro ⟨u, hd, hu⟩
    induction hd generalizing n with
    | refl => exact .start (by simpa using hu)
    | tail _ hs ih =>
      obtain ⟨p, hp, x, y, rfl, rfl⟩ := hs
      simp only [List.mem_append] at hu
      rcases hu with (hu | hu) | hu
      · exact ih (by simp [hu])
      · exact .step (ih (n := p.head) (by simp)) (mem_mentions_iff.mpr ⟨p, hp, rfl, hu⟩)
      · exact ih (by simp [hu])

/-- The augmented start has no rules, so it is not among the unreachable non-terminals. -/
theorem augmentedStart_notMem_unreachable : augmentedStart ∉ g.unreachable := by
  intro h
  obtain ⟨r, hr, hh⟩ := Rulebook.mem_heads.mp (mem_unreachable_iff.mp h).1
  exact head_ne_augmentedStart_of_mem_rules hr hh

/-- The non-terminals in a body of the augmented start or of a reachable non-terminal are reachable. -/
theorem isReachable_of_mem_body {p : Production α} (hp : p ∈ g.productions)
    (h : p.head = augmentedStart ∨ g.IsReachable p.head) (hm : .nonterminal m ∈ p.body) : g.IsReachable m := by
  rcases h with h | h
  · rw [(head_eq_augmentedStart_iff hp).mp h] at hm
    obtain rfl := Symbol.nonterminal.inj (List.mem_singleton.mp hm)
    exact .start List.mem_cons_self
  · exact .step h (mem_mentions_iff.mpr ⟨p, hp, rfl, hm⟩)

end CanonicalLR.Grammar
