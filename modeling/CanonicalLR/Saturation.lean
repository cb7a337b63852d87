/-!
# Least sets closed under a rule

`saturate domain admits` collects members of `domain` in rounds. A round adds every member that the rule `admits` on
the strength of those collected before, and the rounds end when one adds nothing. The result is closed under the rule
(`mem_saturate_of_admits`), and of a rule that asks for no more than some property gives, it holds only members with
that property (`saturate_induction`).
-/

namespace CanonicalLR

variable {α : Type} [DecidableEq α]

/-- The members of `domain` that the next round adds to those collected. -/
def admitted (domain : List α) (admits : List α → α → Bool) (known : List α) : List α :=
  domain.filter fun x => decide (x ∉ known) && admits known x

/-- Adds rounds to `known` until one adds nothing, or the bound on their number is used up. -/
def saturateFrom (domain : List α) (admits : List α → α → Bool) : Nat → List α → List α
  | 0, known => known
  | rounds + 1, known =>
    match admitted domain admits known with
    | [] => known
    | x :: xs => saturateFrom domain admits rounds (known ++ x :: xs)

/-- The least set of members of `domain` that is closed under the rule. -/
def saturate (domain : List α) (admits : List α → α → Bool) : List α :=
  saturateFrom domain admits domain.length []

variable {domain : List α} {admits : List α → α → Bool}

theorem mem_admitted {known : List α} {x : α} :
    x ∈ admitted domain admits known ↔ x ∈ domain ∧ x ∉ known ∧ admits known x = true := by
  simp [admitted]

/-! ## Only what the rule admits -/

theorem saturateFrom_induction {P : α → Prop}
    (hP : ∀ known, (∀ x ∈ known, P x) → ∀ x ∈ domain, admits known x = true → P x) {rounds : Nat} {known : List α}
    (hknown : ∀ x ∈ known, P x) : ∀ x ∈ saturateFrom domain admits rounds known, P x := by
  induction rounds generalizing known with
  | zero => exact hknown
  | succ rounds ih =>
    simp only [saturateFrom]
    split
    · exact hknown
    · rename_i y ys h
      refine ih fun x hx => ?_
      rcases List.mem_append.mp hx with hx | hx
      · exact hknown x hx
      · rw [← h] at hx
        obtain ⟨hd, _, ha⟩ := mem_admitted.mp hx
        exact hP known hknown x hd ha

/-- A property that the rule hands on holds of all members that are collected. -/
theorem saturate_induction {P : α → Prop}
    (hP : ∀ known, (∀ x ∈ known, P x) → ∀ x ∈ domain, admits known x = true → P x) :
    ∀ x ∈ saturate domain admits, P x := saturateFrom_induction hP (by simp)

/-! ## All that the rule admits -/

/-- A round that adds something leaves fewer members to add. -/
theorem length_missing_lt {known added : List α} {x : α} (hx : x ∈ domain) (hk : x ∉ known) (ha : x ∈ added) :
    (domain.filter (· ∉ known ++ added)).length < (domain.filter (· ∉ known)).length := by
  have e : domain.filter (· ∉ known ++ added) = (domain.filter (· ∉ known)).filter (· ∉ added) := by
    rw [List.filter_filter]
    congr 1
    funext y
    simp only [List.mem_append, not_or, Bool.decide_and]
    rw [Bool.and_comm]
  rw [e, List.length_filter_lt_length_iff_exists]
  exact ⟨x, by simpa using ⟨hx, hk⟩, by simpa using ha⟩

theorem mem_saturateFrom_of_admits {rounds : Nat} {known : List α}
    (hrounds : (domain.filter (· ∉ known)).length ≤ rounds) :
    ∀ x ∈ domain, admits (saturateFrom domain admits rounds known) x = true →
      x ∈ saturateFrom domain admits rounds known := by
  induction rounds generalizing known with
  | zero =>
    intro x hx _
    have hnil := List.length_eq_zero_iff.mp (Nat.le_zero.mp hrounds)
    have h := List.filter_eq_nil_iff.mp hnil x hx
    simp only [saturateFrom]
    simpa using h
  | succ rounds ih =>
    simp only [saturateFrom]
    split
    · rename_i h
      intro x hx ha
      apply Decidable.byContradiction
      intro hn
      have hmem := mem_admitted.mpr ⟨hx, hn, ha⟩
      rw [h] at hmem
      exact List.not_mem_nil hmem
    · rename_i y ys h
      apply ih
      have hy : y ∈ admitted domain admits known := h ▸ List.mem_cons_self
      obtain ⟨hd, hk, _⟩ := mem_admitted.mp hy
      have hlt := @length_missing_lt _ _ domain known (y :: ys) y hd hk List.mem_cons_self
      omega

/-- Every member that the rule admits on the strength of the result is collected. -/
theorem mem_saturate_of_admits {x : α} (hx : x ∈ domain) (ha : admits (saturate domain admits) x = true) :
    x ∈ saturate domain admits :=
  mem_saturateFrom_of_admits (List.length_filter_le _ _) x hx ha

end CanonicalLR
