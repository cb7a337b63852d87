import CanonicalLR.Datum

/-!
# Keys

Sets and maps hold entries as keys. A key is a symbol or a plain value; a list or a record is no key. A truth value
counts as equal to a number, so keys are told apart by their normal forms: they are the same just if the entries count
as equal (`agrees_eq_of_key?`).
-/

namespace CanonicalLR

/-- What sets and maps can hold: a symbol or a plain value. -/
inductive Key where
  | symbol (s : Symbol)
  | text (s : String)
  | number (n : Int)
  | flag (b : Bool)
  | nothing
deriving DecidableEq

instance : Coe Symbol Key := ⟨.symbol⟩

namespace Key

/-- The key that is a terminal. -/
@[match_pattern] abbrev terminal (t : Terminal) : Key := .symbol (.terminal t)

/-- The key that is a non-terminal. -/
@[match_pattern] abbrev nonterminal (n : NonTerminal) : Key := .symbol (.nonterminal n)

/-- The key as a symbol. -/
def symbol? : Key → Option Symbol
  | symbol s => some s
  | _ => none

/-- The key as a text. -/
def text? : Key → Option String
  | text s => some s
  | _ => none

/-- The key as a number. A truth value counts as 1 or 0. -/
def number? : Key → Option Int
  | number n => some n
  | flag b => some (if b then 1 else 0)
  | _ => none

/-- Whether a key is a truth value. -/
def isFlag : Key → Bool
  | flag _ => true
  | _ => false

/-- The key with a truth value replaced by the number that it counts as. -/
def normal : Key → Key
  | flag b => number (if b then 1 else 0)
  | k => k

/-- The entry that a key is. -/
def entry : Key → Datum
  | symbol s => .symbol s
  | text s => .value (.plain (.text s))
  | number n => .value (.plain (.number n))
  | flag b => .value (.plain (.flag b))
  | nothing => .value (.plain .nothing)

/-- The form of a key in messages. -/
def debugForm (k : Key) : String := k.entry.debugForm

/-- The plain form of a key. -/
def plainForm (k : Key) : String := k.entry.plainForm

/-- The order of two keys. Only two symbols, two texts and two numbers have one. -/
def order? (k l : Key) : Option Ordering := k.entry.order? l.entry

end Key

/-! ## Order

Any two keys have a place in a set, those with an order in that order and next to each other. -/

instance : Ord Key :=
  ⟨compareLex (compareOn Key.symbol?) (compareLex (compareOn Key.text?)
    (compareLex (compareOn Key.number?) (compareOn Key.isFlag)))⟩

instance : Std.TransOrd Key := inferInstanceAs
  (Std.TransCmp (compareLex (compareOn Key.symbol?) (compareLex (compareOn Key.text?)
    (compareLex (compareOn Key.number?) (compareOn Key.isFlag)))))

instance : Std.LawfulEqOrd Key where
  compare_self := Std.ReflCmp.compare_self
  eq_of_compare {a b} h := by
    obtain ⟨hs, h⟩ := compareLex_eq_eq.mp h
    obtain ⟨ht, h⟩ := compareLex_eq_eq.mp h
    obtain ⟨hn, hf⟩ := compareLex_eq_eq.mp h
    replace hs : a.symbol? = b.symbol? := Std.LawfulEqOrd.eq_of_compare hs
    replace ht : a.text? = b.text? := Std.LawfulEqOrd.eq_of_compare ht
    replace hn : a.number? = b.number? := Std.LawfulEqOrd.eq_of_compare hn
    replace hf : a.isFlag = b.isFlag := Std.LawfulEqOrd.eq_of_compare hf
    clear h
    cases a <;> cases b <;> grind [Key.symbol?, Key.text?, Key.number?, Key.isFlag]

/-- Symbols keep their order as keys. -/
theorem Key.compare_symbol {x y : Symbol} : compare (Key.symbol x) (Key.symbol y) = compare x y := by
  show (compare (some x) (some y)).then (Ordering.eq.then (Ordering.eq.then .eq)) = _
  simp only [Ordering.then_eq]
  rfl

theorem Key.symbol?_normal {k : Key} : k.normal.symbol? = k.symbol? := by cases k <;> rfl

/-- A symbol is no number. -/
theorem Key.number?_isNone {k : Key} (h : k.symbol?.isSome) : k.number?.isNone = true := by
  cases k <;> simp_all [Key.symbol?, Key.number?]

/-- Two symbols have an order. -/
theorem Key.order?_isSome {k l : Key} (hk : k.symbol?.isSome) (hl : l.symbol?.isSome) : (k.order? l).isSome := by
  cases k <;> cases l <;> simp_all [Key.symbol?, Key.order?, Key.entry, Datum.order?]

/-! ## Entries as keys -/

namespace Datum

/-- The key that an entry is. -/
def key? : Datum → Option Key
  | symbol s => some (.symbol s)
  | value (.plain (.text s)) => some (.text s)
  | value (.plain (.number n)) => some (.number n)
  | value (.plain (.flag b)) => some (.flag b)
  | value (.plain .nothing) => some .nothing
  | value (.list _) => none
  | value (.record _) => none

@[simp] theorem key?_entry {k : Key} : k.entry.key? = some k := by cases k <;> rfl

/-- Entries count as equal just if their keys have one normal form. -/
theorem agrees_eq_of_key? {d e : Datum} {k l : Key} (hd : d.key? = some k) (he : e.key? = some l) :
    d.agrees e = decide (k.normal = l.normal) := by
  unfold key? at hd he
  split at hd <;> split at he <;>
    simp_all [agrees, Value.agrees, Scalar.agrees, Scalar.number?, Key.normal] <;> grind [Key.normal]

end Datum

end CanonicalLR
