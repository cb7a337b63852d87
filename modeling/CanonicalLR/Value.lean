import CanonicalLR.Text.Scalar

/-!
# Values

A value is plain, a list of values, or a record of named values. Values stand in definitions where symbols are
expected, as payloads and as arguments of messages. Equality of values is decidable (`Value.decEq`).
-/

namespace CanonicalLR

/-- A value. -/
inductive Value where
  | plain (v : Scalar)
  | list (vs : List Value)
  | record (fields : List (String × Value))

instance : Inhabited Value := ⟨.plain .nothing⟩

namespace Value

/-! ## Forms -/

mutual

/-- The form of a value in messages. A list stands in square brackets and a record in braces. -/
def debugForm : Value → String
  | plain v => v.debugForm
  | list vs => "[" ++ ", ".intercalate (elementForms vs) ++ "]"
  | record fields => "\x7b" ++ ", ".intercalate (fieldForms fields) ++ "\x7d"

/-- The forms of the values of a list. -/
def elementForms : List Value → List String
  | [] => []
  | v :: vs => v.debugForm :: elementForms vs

/-- The forms of the fields of a record: the quoted name, a colon and the form of the value. -/
def fieldForms : List (String × Value) → List String
  | [] => []
  | (name, v) :: fields => (Text.quote name ++ ": " ++ v.debugForm) :: fieldForms fields

end

/-- The plain form of a value. -/
def plainForm : Value → String
  | plain v => v.plainForm
  | v => v.debugForm

/-- The value as a number. -/
def number? : Value → Option Int
  | plain v => v.number?
  | _ => none

/-- Whether a value is nothing, false, zero, or without characters, elements or fields. -/
def isEmpty : Value → Bool
  | plain (.text s) => s.isEmpty
  | plain (.number n) => n = 0
  | plain (.flag b) => !b
  | plain .nothing => true
  | list vs => vs.isEmpty
  | record fields => fields.isEmpty

/-- Whether a value is a list or a record. -/
def isComposite : Value → Bool
  | plain _ => false
  | _ => true

/-- The values that a value is a sequence of. A text is the sequence of its characters, a record that of its names. -/
def elements? : Value → Option (List Value)
  | plain (.text s) => some (s.toList.map fun c => plain (.text c.toString))
  | plain _ => none
  | list vs => some vs
  | record fields => some (fields.map fun f => plain (.text f.1))

/-! ## Equality -/

mutual

/-- Decides whether two values are the same. -/
def decEq : (v w : Value) → Decidable (v = w)
  | plain a, plain b => if h : a = b then .isTrue (by rw [h]) else .isFalse (by simp [h])
  | plain _, list _ => .isFalse (by simp)
  | plain _, record _ => .isFalse (by simp)
  | list _, plain _ => .isFalse (by simp)
  | list vs, list ws =>
    match decEqElements vs ws with
    | .isTrue h => .isTrue (by rw [h])
    | .isFalse h => .isFalse (by simp [h])
  | list _, record _ => .isFalse (by simp)
  | record _, plain _ => .isFalse (by simp)
  | record _, list _ => .isFalse (by simp)
  | record fs, record gs =>
    match decEqFields fs gs with
    | .isTrue h => .isTrue (by rw [h])
    | .isFalse h => .isFalse (by simp [h])

/-- Decides whether two lists hold the same values. -/
def decEqElements : (vs ws : List Value) → Decidable (vs = ws)
  | [], [] => .isTrue rfl
  | [], _ :: _ => .isFalse (by simp)
  | _ :: _, [] => .isFalse (by simp)
  | v :: vs, w :: ws =>
    match decEq v w, decEqElements vs ws with
    | .isTrue h, .isTrue hs => .isTrue (by rw [h, hs])
    | .isFalse h, _ => .isFalse (by simp [h])
    | _, .isFalse hs => .isFalse (by simp [hs])

/-- Decides whether two records hold the same fields in the same order. -/
def decEqFields : (fs gs : List (String × Value)) → Decidable (fs = gs)
  | [], [] => .isTrue rfl
  | [], _ :: _ => .isFalse (by simp)
  | _ :: _, [] => .isFalse (by simp)
  | (m, v) :: fs, (n, w) :: gs =>
    match (inferInstance : Decidable (m = n)), decEq v w, decEqFields fs gs with
    | .isTrue hn, .isTrue h, .isTrue hs => .isTrue (by rw [hn, h, hs])
    | .isFalse hn, _, _ => .isFalse (by simp [hn])
    | _, .isFalse h, _ => .isFalse (by simp [h])
    | _, _, .isFalse hs => .isFalse (by simp [hs])

end

instance : DecidableEq Value := decEq

/-! ## Comparison -/

mutual

/-- Whether two values count as equal. Lists do if their values do one by one, records if each has the fields of the
other. -/
def agrees : Value → Value → Bool
  | plain a, plain b => a.agrees b
  | list vs, list ws => agreeElements vs ws
  | record fs, record gs => fs.length == gs.length && agreeFields fs gs
  | _, _ => false

/-- Whether two lists hold values that count as equal one by one. -/
def agreeElements : List Value → List Value → Bool
  | [], [] => true
  | v :: vs, w :: ws => v.agrees w && agreeElements vs ws
  | _, _ => false

/-- Whether each field of a record counts as equal to the field of that name of another. -/
def agreeFields : List (String × Value) → List (String × Value) → Bool
  | [], _ => true
  | (name, v) :: fs, gs => (gs.lookup name).any (fun w => v.agrees w) && agreeFields fs gs

end

mutual

/-- The order of two values: that of plain values, and for lists that of the first values that do not count as equal.
A list that the other goes on from comes first. -/
def order? : Value → Value → Option Ordering
  | plain a, plain b => a.order? b
  | list vs, list ws => orderElements? vs ws
  | _, _ => none

/-- The order of two lists. -/
def orderElements? : List Value → List Value → Option Ordering
  | [], [] => some .eq
  | [], _ :: _ => some .lt
  | _ :: _, [] => some .gt
  | v :: vs, w :: ws => if v.agrees w then orderElements? vs ws else v.order? w

end

end Value

end CanonicalLR
