/-!
# Finite sets with one written form

A set is the strictly increasing list of its members, so two sets with the same members are equal values and every
walk over a set is in increasing order. `mem_ofList` says that building a set keeps the members and nothing else,
`ext_mem` that the members determine the set.
-/

namespace CanonicalLR

/-- A finite set, held as the strictly increasing list of its members. -/
structure SortedSet (α : Type) [Ord α] where
  /-- The members, in increasing order. -/
  toList : List α
  /-- Each member is below all that follow it. -/
  increasing : toList.Pairwise fun a b => compare a b = .lt

namespace SortedSet

variable {α : Type} [Ord α]

instance [DecidableEq α] : DecidableEq (SortedSet α) := fun s t =>
  if h : s.toList = t.toList then
    .isTrue (by cases s; cases t; cases h; rfl)
  else
    .isFalse fun e => h (e ▸ rfl)

instance : Membership α (SortedSet α) := ⟨fun s a => a ∈ s.toList⟩

theorem mem_def {s : SortedSet α} {a : α} : a ∈ s ↔ a ∈ s.toList := Iff.rfl

instance [DecidableEq α] (s : SortedSet α) (a : α) : Decidable (a ∈ s) := inferInstanceAs (Decidable (a ∈ s.toList))

/-- The set without members. -/
def empty : SortedSet α := ⟨[], .nil⟩

/-- The number of members. -/
def size (s : SortedSet α) : Nat := s.toList.length

/-- Whether the set has no member. -/
def isEmpty (s : SortedSet α) : Bool := s.toList.isEmpty

theorem isEmpty_iff {s : SortedSet α} : s.isEmpty = true ↔ ¬∃ a, a ∈ s := by
  rw [isEmpty, List.isEmpty_iff, List.eq_nil_iff_forall_not_mem, not_exists]
  rfl

/-- The members that satisfy `p`. -/
def filter (p : α → Bool) (s : SortedSet α) : SortedSet α := ⟨s.toList.filter p, s.increasing.filter p⟩

theorem mem_filter {p : α → Bool} {s : SortedSet α} {a : α} : a ∈ s.filter p ↔ a ∈ s ∧ p a = true := by
  simp [mem_def, filter]

/-- Whether every member of `s` is a member of `t`. -/
def isSubset [DecidableEq α] (s t : SortedSet α) : Bool := s.toList.all (· ∈ t.toList)

theorem isSubset_iff [DecidableEq α] {s t : SortedSet α} : s.isSubset t = true ↔ ∀ a ∈ s, a ∈ t := by
  simp [isSubset, mem_def]

/-! ## Insertion -/

/-- Puts `a` at its place in an increasing list, unless it is there already. -/
def insertInto (a : α) : List α → List α
  | [] => [a]
  | b :: bs =>
    match compare a b with
    | .lt => a :: b :: bs
    | .eq => b :: bs
    | .gt => b :: insertInto a bs

variable [Std.TransOrd α] [Std.LawfulEqOrd α]

omit [Std.TransOrd α] in
theorem mem_insertInto {a b : α} {bs : List α} : b ∈ insertInto a bs ↔ b = a ∨ b ∈ bs := by
  induction bs with
  | nil => simp [insertInto]
  | cons c bs ih =>
    simp only [insertInto]
    split
    · simp
    · rename_i h
      rw [Std.LawfulEqOrd.eq_of_compare h]
      simp
    · simp only [List.mem_cons, ih]
      grind

theorem pairwise_insertInto {a : α} : ∀ {bs : List α}, bs.Pairwise (fun a b => compare a b = .lt) →
    (insertInto a bs).Pairwise fun a b => compare a b = .lt
  | [], _ => by simp [insertInto]
  | b :: bs, h => by
    obtain ⟨hb, hbs⟩ := List.pairwise_cons.mp h
    simp only [insertInto]
    split
    · rename_i hab
      refine List.pairwise_cons.mpr ⟨fun c hc => ?_, h⟩
      rcases List.mem_cons.mp hc with rfl | hc
      · exact hab
      · exact Std.TransCmp.lt_trans hab (hb c hc)
    · exact h
    · rename_i hab
      refine List.pairwise_cons.mpr ⟨fun c hc => ?_, pairwise_insertInto hbs⟩
      rcases mem_insertInto.mp hc with rfl | hc
      · exact Std.OrientedCmp.lt_of_gt hab
      · exact hb c hc

/-- The set with the member `a` added. -/
def insert (a : α) (s : SortedSet α) : SortedSet α := ⟨insertInto a s.toList, pairwise_insertInto s.increasing⟩

theorem mem_insert {a b : α} {s : SortedSet α} : b ∈ s.insert a ↔ b = a ∨ b ∈ s := mem_insertInto

/-- The set of the members of a list. -/
def ofList (as : List α) : SortedSet α := as.foldr insert empty

@[simp] theorem mem_ofList {b : α} {as : List α} : b ∈ ofList as ↔ b ∈ as := by
  induction as with
  | nil => simp [ofList, empty, mem_def]
  | cons a as ih =>
    simp only [ofList, List.foldr_cons, mem_insert, List.mem_cons] at ih ⊢
    rw [ih]

/-- The set of all members of two sets. -/
def union (s t : SortedSet α) : SortedSet α := s.toList.foldr insert t

theorem mem_foldr_insert {b : α} {t : SortedSet α} {as : List α} : b ∈ as.foldr insert t ↔ b ∈ as ∨ b ∈ t := by
  induction as with
  | nil => simp
  | cons a as ih =>
    simp only [List.foldr_cons, mem_insert, ih, List.mem_cons]
    grind

theorem mem_union {b : α} {s t : SortedSet α} : b ∈ s.union t ↔ b ∈ s ∨ b ∈ t := mem_foldr_insert

/-! ## One written form -/

/-- An increasing list is determined by its members. -/
theorem eq_of_pairwise_of_mem : ∀ {as bs : List α}, as.Pairwise (fun a b => compare a b = .lt) →
    bs.Pairwise (fun a b => compare a b = .lt) → (∀ x, x ∈ as ↔ x ∈ bs) → as = bs
  | [], [], _, _, _ => rfl
  | [], b :: _, _, _, h => absurd ((h b).mpr List.mem_cons_self) List.not_mem_nil
  | a :: _, [], _, _, h => absurd ((h a).mp List.mem_cons_self) List.not_mem_nil
  | a :: as, b :: bs, ha, hb, h => by
    obtain ⟨ha1, ha2⟩ := List.pairwise_cons.mp ha
    obtain ⟨hb1, hb2⟩ := List.pairwise_cons.mp hb
    have hab : a = b := by
      rcases List.mem_cons.mp ((h a).mp List.mem_cons_self) with e | e
      · exact e
      · rcases List.mem_cons.mp ((h b).mpr List.mem_cons_self) with e' | e'
        · exact e'.symm
        · have h1 := ha1 b e'
          have h2 := hb1 a e
          rw [Std.OrientedCmp.gt_of_lt h1] at h2
          cases h2
    subst hab
    have irrefl : ∀ {cs : List α}, (∀ c ∈ cs, compare a c = .lt) → a ∉ cs := fun hc hm => by
      have h := hc a hm
      rw [Std.compare_self] at h
      cases h
    congr 1
    refine eq_of_pairwise_of_mem ha2 hb2 fun x => ⟨fun hx => ?_, fun hx => ?_⟩
    · rcases List.mem_cons.mp ((h x).mp (List.mem_cons_of_mem _ hx)) with rfl | hx'
      · exact absurd hx (irrefl ha1)
      · exact hx'
    · rcases List.mem_cons.mp ((h x).mpr (List.mem_cons_of_mem _ hx)) with rfl | hx'
      · exact absurd hx (irrefl hb1)
      · exact hx'

/-- Sets with the same members are equal. -/
theorem ext_mem {s t : SortedSet α} (h : ∀ a, a ∈ s ↔ a ∈ t) : s = t := by
  obtain ⟨as, ha⟩ := s
  obtain ⟨bs, hb⟩ := t
  have e : as = bs := eq_of_pairwise_of_mem ha hb h
  subst e
  rfl

/-- An increasing list is that of the set of its members. -/
theorem toList_ofList {as : List α} (h : as.Pairwise fun a b => compare a b = .lt) : (ofList as).toList = as :=
  eq_of_pairwise_of_mem (ofList as).increasing h fun _ => mem_ofList

end SortedSet

end CanonicalLR
