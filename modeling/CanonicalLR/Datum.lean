import CanonicalLR.Symbol

/-!
# Entries

An entry stands where a symbol is expected. It is a symbol or another value in its place.
-/

namespace CanonicalLR

/-- An entry where a symbol is expected: a symbol, or another value in its place. -/
inductive Datum where
  | symbol (s : Symbol)
  | value (v : Value)
deriving DecidableEq

instance : Coe Symbol Datum := ⟨.symbol⟩

namespace Datum

/-- The form of an entry in messages. -/
def debugForm : Datum → String
  | symbol s => s.debugForm
  | value v => v.debugForm

/-- The plain form of an entry, which for a symbol is its name. -/
def plainForm : Datum → String
  | symbol s => s.name
  | value v => v.plainForm

/-- Whether two entries count as equal. A symbol never equals another value. -/
def agrees : Datum → Datum → Bool
  | symbol s, symbol t => s = t
  | value v, value w => v.agrees w
  | _, _ => false

/-- The order of two entries. A symbol and another value have none. -/
def order? : Datum → Datum → Option Ordering
  | symbol s, symbol t => some (compare s t)
  | value v, value w => v.order? w
  | _, _ => none

/-- The entries of a list in increasing order, if every two of them have one. -/
def sort? (ds : List Datum) : Option (List Datum) :=
  if ds.Pairwise fun d e => (d.order? e).isSome then
    some (ds.mergeSort fun d e => (d.order? e).any (·.isLE))
  else none

end Datum

end CanonicalLR
