import CanonicalLR.Table.Compile

/-!
# Choosing between actions

Among candidates with at most one shift, none of which reduces by the augmented production, the choice falls on one of
them and rejects all others (`resolve_spec`). Hence nothing is rejected just if all candidates are the same
(`rejected_eq_nil_iff`), and the order of the candidates does not matter (`resolve_congr`). `resolve_isChoiceOf` also
says which one is chosen and in which order the others are rejected.
-/

namespace CanonicalLR

/-- What the candidates of one cell are like: at most one shift, and no reduction by the augmented production. -/
structure CellCandidates (cs : List Action) : Prop where
  shift_unique : ∀ i j, .shift i ∈ cs → .shift j ∈ cs → i = j
  no_reduce_zero : .reduce 0 ∉ cs

variable {cs : List Action} {act : Action} {r : Resolution}

theorem completing_ruleNumber? {n : Int} (h : act.ruleNumber? = some n) (h0 : act ≠ .reduce 0) :
    Action.completing n = act := by
  cases act with
  | shift j => cases h
  | accept =>
    obtain rfl : 0 = n := Option.some.inj h
    rfl
  | reduce p =>
    obtain rfl : p = n := Option.some.inj h
    have hp : p ≠ 0 := by
      rintro rfl
      exact h0 rfl
    simp [Action.completing, hp]

/-- What completes a rule completes no other. -/
theorem ruleNumber?_completing (k : Int) : (Action.completing k).ruleNumber? = some k := by
  unfold Action.completing
  split
  · rename_i hk
    rw [hk]
    rfl
  · rfl

theorem ruleNumber?_isSome_iff : act.ruleNumber?.isSome ↔ act.isShift = false := by
  cases act <;> simp [Action.ruleNumber?, Action.isShift]

/-- The completions are the candidates that are no shifts. -/
theorem mem_completions_iff (h0 : .reduce 0 ∉ cs) : act ∈ completions cs ↔ act ∈ cs ∧ act.isShift = false := by
  have hm : act ∈ completions cs ↔ ∃ c ∈ cs, ∃ n, c.ruleNumber? = some n ∧ Action.completing n = act := by
    simp only [completions, List.mem_map, ← SortedSet.mem_def, SortedSet.mem_ofList, List.mem_filterMap]
    constructor
    · rintro ⟨n, ⟨c, hc, hn⟩, ha⟩
      exact ⟨c, hc, n, hn, ha⟩
    · rintro ⟨c, hc, n, hn, ha⟩
      exact ⟨n, ⟨c, hc, hn⟩, ha⟩
  rw [hm]
  constructor
  · rintro ⟨c, hc, n, hn, rfl⟩
    rw [completing_ruleNumber? hn fun e => h0 (e ▸ hc)]
    exact ⟨hc, ruleNumber?_isSome_iff.mp (by rw [hn]; rfl)⟩
  · rintro ⟨ha, hs⟩
    obtain ⟨n, hn⟩ := Option.isSome_iff_exists.mp (ruleNumber?_isSome_iff.mpr hs)
    exact ⟨act, ha, n, hn, completing_ruleNumber? hn fun e => h0 (e ▸ ha)⟩

theorem nodup_completions : (completions cs).Nodup := by
  refine List.pairwise_map.mpr ((SortedSet.ofList (cs.filterMap Action.ruleNumber?)).increasing.imp ?_)
  intro k l hkl he
  have hk := ruleNumber?_completing k
  rw [he, ruleNumber?_completing] at hk
  obtain rfl := Option.some.inj hk
  rw [Std.compare_self] at hkl
  cases hkl

/-- **The choice is a candidate, and all other candidates are rejected.** -/
theorem resolve_spec (hc : CellCandidates cs) (hr : resolve cs = some r) :
    r.chosen ∈ cs ∧ ∀ act, act ∈ r.rejected ↔ act ∈ cs ∧ act ≠ r.chosen := by
  unfold resolve at hr
  cases hf : cs.find? Action.isShift with
  | some c =>
    rw [hf] at hr
    cases hr
    have hcs : c ∈ cs := List.mem_of_find?_eq_some hf
    have hsh : c.isShift = true := List.find?_some hf
    refine ⟨hcs, fun act => ?_⟩
    rw [mem_completions_iff hc.no_reduce_zero]
    refine and_congr_right fun ha => ?_
    cases c with
    | reduce p => cases hsh
    | accept => cases hsh
    | shift j =>
      cases act with
      | reduce p => simp [Action.isShift]
      | accept => simp [Action.isShift]
      | shift i => simp [Action.isShift, hc.shift_unique i j ha hcs]
  | none =>
    have hsh : ∀ c ∈ cs, c.isShift = false := by simpa using List.find?_eq_none.mp hf
    rw [hf] at hr
    cases hk : completions cs with
    | nil =>
      rw [hk] at hr
      cases hr
    | cons c rest =>
      rw [hk] at hr
      cases hr
      have hm : ∀ act, act ∈ c :: rest ↔ act ∈ cs := fun act => by
        rw [← hk, mem_completions_iff hc.no_reduce_zero]
        exact ⟨fun h => h.1, fun h => ⟨h, hsh act h⟩⟩
      have hn : c ∉ rest := (List.nodup_cons.mp (hk ▸ nodup_completions)).1
      refine ⟨(hm c).mp List.mem_cons_self, fun act => ?_⟩
      rw [← hm act, List.mem_cons]
      constructor
      · intro ha
        refine ⟨.inr ha, ?_⟩
        rintro rfl
        exact hn ha
      · rintro ⟨rfl | ha, hne⟩
        · exact absurd rfl hne
        · exact ha

/-- Which candidates there are decides, not their order. -/
theorem resolve_congr {cs' : List Action} (hc : CellCandidates cs) (h : ∀ act, act ∈ cs' ↔ act ∈ cs) :
    resolve cs' = resolve cs := by
  have hcompletions : completions cs' = completions cs := by
    have hset : SortedSet.ofList (cs'.filterMap Action.ruleNumber?) = .ofList (cs.filterMap Action.ruleNumber?) :=
      SortedSet.ext_mem fun n => by simp only [SortedSet.mem_ofList, List.mem_filterMap, h]
    rw [completions, completions, hset]
  have hshift : cs'.find? Action.isShift = cs.find? Action.isShift := by
    cases hf : cs.find? Action.isShift with
    | none => simpa [h] using List.find?_eq_none.mp hf
    | some c =>
      have hcs : c ∈ cs := List.mem_of_find?_eq_some hf
      have hsh : c.isShift = true := List.find?_some hf
      cases hf' : cs'.find? Action.isShift with
      | none => exact absurd hsh (List.find?_eq_none.mp hf' c ((h c).mpr hcs))
      | some c' =>
        have hcs' : c' ∈ cs := (h c').mp (List.mem_of_find?_eq_some hf')
        have hsh' : c'.isShift = true := List.find?_some hf'
        cases c <;> cases c' <;> simp_all [Action.isShift]
        exact hc.shift_unique _ _ hcs' hcs
  rw [resolve, resolve, hshift, hcompletions]

/-- There is a choice just if there are candidates. -/
theorem resolve_eq_none_iff (h0 : .reduce 0 ∉ cs) : resolve cs = none ↔ cs = [] := by
  refine ⟨fun h => ?_, fun h => by rw [h]; rfl⟩
  unfold resolve at h
  cases hf : cs.find? Action.isShift with
  | some c => rw [hf] at h; cases h
  | none =>
    rw [hf] at h
    cases hk : completions cs with
    | cons c rest => rw [hk] at h; cases h
    | nil =>
      refine List.eq_nil_iff_forall_not_mem.mpr fun act ha => ?_
      have hs : act.isShift = false := by simpa using List.find?_eq_none.mp hf act ha
      have hm := (mem_completions_iff h0).mpr ⟨ha, hs⟩
      rw [hk] at hm
      exact List.not_mem_nil hm

/-- Nothing is rejected just if all candidates are the same. -/
theorem rejected_eq_nil_iff (hc : CellCandidates cs) (hr : resolve cs = some r) :
    r.rejected = [] ↔ ∀ a ∈ cs, ∀ b ∈ cs, a = b := by
  obtain ⟨hch, hrej⟩ := resolve_spec hc hr
  rw [List.eq_nil_iff_forall_not_mem]
  constructor
  · intro h a ha b hb
    have eq_chosen : ∀ act ∈ cs, act = r.chosen := fun act hact =>
      Decidable.byContradiction fun hne => h act ((hrej act).mpr ⟨hact, hne⟩)
    rw [eq_chosen a ha, eq_chosen b hb]
  · intro h act hact
    obtain ⟨ha, hne⟩ := (hrej act).mp hact
    exact hne (h act ha r.chosen hch)

/-! ## Order -/

/-- Both actions complete a rule, and the first one an earlier rule. -/
def Action.Precedes (act act' : Action) : Prop :=
  ∃ k l, act.ruleNumber? = some k ∧ act'.ruleNumber? = some l ∧ k < l

/-- What a choice between candidates is like: it falls on a shift if there is one and on the earliest rule if not, and
all other candidates are rejected in order of their rules. -/
structure Resolution.IsChoiceOf (r : Resolution) (C : Action → Prop) : Prop where
  chosen_mem : C r.chosen
  shift_wins : ∀ j, C (.shift j) → r.chosen = .shift j
  earliest_wins : r.chosen.isShift = false → ∀ act, C act → act ≠ r.chosen → r.chosen.Precedes act
  mem_rejected_iff : ∀ act, act ∈ r.rejected ↔ C act ∧ act ≠ r.chosen
  ordered : r.rejected.Pairwise Action.Precedes
  kind_iff : r.kind = .shiftReduce ↔ r.chosen.isShift = true

/-- Completions stand in order of their rules. -/
theorem pairwise_completions : (completions cs).Pairwise Action.Precedes := by
  refine List.pairwise_map.mpr ((SortedSet.ofList (cs.filterMap Action.ruleNumber?)).increasing.imp fun {k l} hkl => ?_)
  exact ⟨k, l, ruleNumber?_completing k, ruleNumber?_completing l, Int.compare_eq_lt.mp hkl⟩

/-- **A shift wins, then the earliest rule, and the others are rejected in order of their rules.** -/
theorem resolve_isChoiceOf (hc : CellCandidates cs) (hr : resolve cs = some r) : r.IsChoiceOf (· ∈ cs) := by
  obtain ⟨hchosen, hrejected⟩ := resolve_spec hc hr
  have hpairwise : (completions cs).Pairwise Action.Precedes := pairwise_completions
  unfold resolve at hr
  cases hf : cs.find? Action.isShift with
  | some c =>
    rw [hf] at hr
    cases hr
    have hsh : c.isShift = true := List.find?_some hf
    refine ⟨hchosen, fun j hj => ?_, fun hn => ?_, hrejected, hpairwise, iff_of_true rfl hsh⟩
    · cases c with
      | shift i => rw [hc.shift_unique i j hchosen hj]
      | reduce k => cases hsh
      | accept => cases hsh
    · rw [hsh] at hn
      cases hn
  | none =>
    have hsh : ∀ c ∈ cs, c.isShift = false := by simpa using List.find?_eq_none.mp hf
    rw [hf] at hr
    cases hk : completions cs with
    | nil =>
      rw [hk] at hr
      cases hr
    | cons c rest =>
      rw [hk] at hr hpairwise
      cases hr
      obtain ⟨hfirst, hrest⟩ := List.pairwise_cons.mp hpairwise
      refine ⟨hchosen, fun j hj => ?_, fun _ act hact hne => ?_, hrejected, hrest, ?_⟩
      · cases hsh _ hj
      · exact hfirst act ((hrejected act).mpr ⟨hact, hne⟩)
      · simp [hsh c hchosen]

end CanonicalLR
