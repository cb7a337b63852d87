import CanonicalLR.Text.Quoted

/-!
# Plain values

The values without parts: a text, a number, a truth value or nothing. Each has a plain form and a form for messages,
which differ for texts only.
-/

namespace CanonicalLR

/-- A plain value. -/
inductive Scalar where
  | text (s : String)
  | number (n : Int)
  | flag (b : Bool)
  | nothing
deriving DecidableEq

namespace Scalar

/-- The form of a value in messages. -/
def debugForm : Scalar → String
  | text s => Text.quote s
  | number n => toString n
  | flag true => "True"
  | flag false => "False"
  | nothing => "None"

/-- The plain form of a value. -/
def plainForm : Scalar → String
  | text s => s
  | v => v.debugForm

/-- The value as a number. A truth value counts as 1 or 0. -/
def number? : Scalar → Option Int
  | number n => some n
  | flag b => some (if b then 1 else 0)
  | _ => none

/-- Whether two values count as equal. Numbers do if they are the same number, other values if they are the same. -/
def agrees (v w : Scalar) : Bool :=
  match v.number?, w.number? with
  | some m, some n => m = n
  | _, _ => v = w

/-- The order of two texts or of two numbers. Other values have none. -/
def order? : Scalar → Scalar → Option Ordering
  | text s, text t => some (compare s t)
  | v, w => do return compare (← v.number?) (← w.number?)

end Scalar

end CanonicalLR
