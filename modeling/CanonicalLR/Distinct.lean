/-!
# First occurrences

`distinct xs` keeps each member of a list at its first place only, `fresh known xs` also leaves out what is known.
-/

namespace CanonicalLR

variable {α : Type} [DecidableEq α]

/-- The members of a list that are not yet known, each at its first place only. -/
def fresh (known : List α) : List α → List α
  | [] => []
  | x :: xs => if x ∈ known then fresh known xs else x :: fresh (x :: known) xs

theorem mem_fresh {x : α} {known xs : List α} : x ∈ fresh known xs ↔ x ∈ xs ∧ x ∉ known := by
  induction xs generalizing known with
  | nil => simp [fresh]
  | cons y ys ih =>
    simp only [fresh]
    split <;> simp only [List.mem_cons, ih] <;> grind

theorem nodup_fresh {known xs : List α} : (fresh known xs).Nodup := by
  induction xs generalizing known with
  | nil => simp [fresh]
  | cons x xs ih =>
    simp only [fresh]
    split
    · exact ih
    · exact List.nodup_cons.mpr ⟨fun h => (mem_fresh.mp h).2 List.mem_cons_self, ih⟩

theorem nodup_append_fresh {known xs : List α} (h : known.Nodup) : (known ++ fresh known xs).Nodup :=
  List.nodup_append.mpr ⟨h, nodup_fresh, fun _ ha _ hb hab => (mem_fresh.mp hb).2 (hab ▸ ha)⟩

/-- What is not yet known stands in order of its first places. -/
theorem pairwise_fresh {known xs : List α} :
    (fresh known xs).Pairwise fun x y => ∃ i : Nat, xs[i]? = some x ∧ ∀ j, xs[j]? = some y → i < j := by
  induction xs generalizing known with
  | nil => exact .nil
  | cons x xs ih =>
    -- where `x` is known nothing after it is `x` again, so the places are those behind `x`
    have htail (known' : List α) (hx : x ∈ known') : (fresh known' xs).Pairwise fun y z =>
        ∃ i : Nat, (x :: xs)[i]? = some y ∧ ∀ j, (x :: xs)[j]? = some z → i < j := by
      refine (@ih known').imp_of_mem fun {y z} _ hz ⟨i, hi, hlt⟩ => ⟨i + 1, hi, fun j hj => ?_⟩
      cases j with
      | zero =>
        obtain rfl : x = z := Option.some.inj hj
        exact absurd hx (mem_fresh.mp hz).2
      | succ j => exact Nat.succ_lt_succ (hlt j hj)
    rw [fresh]
    split
    · rename_i hx
      exact htail known hx
    · refine List.pairwise_cons.mpr ⟨fun y hy => ⟨0, rfl, fun j hj => ?_⟩, htail _ List.mem_cons_self⟩
      cases j with
      | zero =>
        obtain rfl : x = y := Option.some.inj hj
        exact absurd List.mem_cons_self (mem_fresh.mp hy).2
      | succ j => exact Nat.succ_pos j

/-- The members of a list, each at its first place only. -/
def distinct (xs : List α) : List α := fresh [] xs

@[simp] theorem mem_distinct {x : α} {xs : List α} : x ∈ distinct xs ↔ x ∈ xs := by
  simp [distinct, mem_fresh]

theorem nodup_distinct {xs : List α} : (distinct xs).Nodup := nodup_fresh

/-- The members stand in order of their first places: one place of the first is before all places of the second. -/
theorem pairwise_distinct {xs : List α} :
    (distinct xs).Pairwise fun x y => ∃ i : Nat, xs[i]? = some x ∧ ∀ j, xs[j]? = some y → i < j := pairwise_fresh

end CanonicalLR
