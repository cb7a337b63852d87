/-!
# Positions counted from either end

A position `i` of a list with `n` entries counts from the front if it is not negative and from the end if it is
negative, so `-1` is the last entry. Reading an entry needs a position in `-n … n - 1` (`place_eq_some_iff`);
cutting takes any position and moves it to the nearest gap between entries (`gap`), and so does inserting, provided
that the position is a word of 64 bits (`IsWord`).
-/

namespace CanonicalLR.Position

/-- The place of position `i` among `n` entries, if there is one. -/
def place (n : Nat) (i : Int) : Option Nat :=
  if i < 0 then
    if -(n : Int) ≤ i then some (i + n).toNat else none
  else
    if i < n then some i.toNat else none

theorem place_eq_some_iff {n : Nat} {i : Int} {k : Nat} :
    place n i = some k ↔ k < n ∧ (i = k ∨ i = (k : Int) - n) := by
  simp only [place]
  split <;> split <;> simp <;> omega

@[simp] theorem place_natCast {n k : Nat} : place n (k : Int) = if k < n then some k else none := by
  simp only [place]
  split
  · omega
  · simp

/-- The entry at position `i`. -/
def get? {α : Type} (xs : List α) (i : Int) : Option α := (place xs.length i).bind fun k => xs[k]?

@[simp] theorem get?_natCast {α : Type} {xs : List α} {k : Nat} : get? xs (k : Int) = xs[k]? := by
  simp only [get?, place_natCast]
  split
  · rfl
  · rename_i h
    simp [List.getElem?_eq_none (Nat.le_of_not_lt h)]

/-- The gap before position `i` among `n` entries, the nearest one if `i` lies beyond either end. -/
def gap (n : Nat) (i : Int) : Nat := if i < 0 then (i + n).toNat else min i.toNat n

@[simp] theorem gap_natCast {n k : Nat} : gap n (k : Int) = min k n := by
  simp only [gap]
  split
  · omega
  · simp

/-- The entries from the gap before position `i` on. -/
def suffixFrom {α : Type} (xs : List α) (i : Int) : List α := xs.drop (gap xs.length i)

/-- A position is a word if it fits in 64 bits with a sign. -/
def IsWord (i : Int) : Prop := -9223372036854775808 ≤ i ∧ i ≤ 9223372036854775807

instance (i : Int) : Decidable (IsWord i) :=
  inferInstanceAs (Decidable (-9223372036854775808 ≤ i ∧ i ≤ 9223372036854775807))

/-- The list with `x` put into the gap before position `i`, if the position is a word. -/
def insertAt? {α : Type} (xs : List α) (i : Int) (x : α) : Option (List α) :=
  if IsWord i then some (xs.take (gap xs.length i) ++ x :: xs.drop (gap xs.length i)) else none

end CanonicalLR.Position
