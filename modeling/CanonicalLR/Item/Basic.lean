import CanonicalLR.Grammar.Basic
import CanonicalLR.Key

/-!
# Items

An item is a production, a dot somewhere in its body and a lookahead. Items are plain values: the production is named
by its position, which may count from the end or lie outside the grammar, and so may the dot; the lookahead is a
terminal of the grammar in all items that are computed, but may be any key in items that are given. An item lies within
a grammar if its production exists and its dot is not too far to the left; a dot beyond the end counts as at the end.
-/

namespace CanonicalLR

/-- A production with a dot in its body, and the key that has to follow for the production to be reduced. -/
structure Item where
  production : Int
  dot : Int
  lookahead : Key
deriving DecidableEq

/-! ## Order -/

instance : Ord Item :=
  ⟨compareLex (compareOn Item.production) (compareLex (compareOn Item.dot) (compareOn Item.lookahead))⟩

instance : Std.TransOrd Item := inferInstanceAs
  (Std.TransCmp (compareLex (compareOn Item.production) (compareLex (compareOn Item.dot) (compareOn Item.lookahead))))

instance : Std.LawfulEqOrd Item where
  compare_self := Std.ReflCmp.compare_self
  eq_of_compare {a b} h := by
    obtain ⟨hp, h⟩ := compareLex_eq_eq.mp h
    obtain ⟨hd, hl⟩ := compareLex_eq_eq.mp h
    cases a
    cases b
    simp only [Item.mk.injEq]
    exact ⟨Std.LawfulEqOrd.eq_of_compare hp, Std.LawfulEqOrd.eq_of_compare hd, Std.LawfulEqOrd.eq_of_compare hl⟩

namespace Item

theorem compare_eq {a b : Item} :
    compare a b = (compare a.production b.production).then ((compare a.dot b.dot).then
      (compare a.lookahead b.lookahead)) := rfl

/-- The form of an item in messages. -/
def debugForm (it : Item) : String :=
  s!"LRItem(production={it.production}, dot={it.dot}, lookahead={it.lookahead.debugForm})"

/-- The production and the dot of an item. -/
def core (it : Item) : Int × Int := (it.production, it.dot)

/-- The item with its dot one symbol further. -/
def advance (it : Item) : Item := { it with dot := it.dot + 1 }

/-- Items keep their order when their dots move. -/
theorem compare_advance {a b : Item} : compare a.advance b.advance = compare a b := by
  have hd : compare (a.dot + 1) (b.dot + 1) = compare a.dot b.dot := by
    rw [Int.compare_eq_ite_le, Int.compare_eq_ite_le]
    grind
  rw [compare_eq, compare_eq, ← hd]
  rfl

variable {α : Type} (g : Grammar α)

/-- The body of the item's production. It is empty if there is no such production. -/
def body (it : Item) : List Symbol := ((g.production? it.production).map fun p => p.body).getD []

/-- Whether the item's production exists and its dot is not left of all positions in the body. -/
def isWithin (it : Item) : Bool :=
  match g.production? it.production with
  | none => false
  | some p => -(p.body.length : Int) ≤ it.dot

theorem isWithin_advance {it : Item} (h : it.isWithin g) : it.advance.isWithin g = true := by
  simp only [isWithin, advance] at h ⊢
  cases hp : g.production? it.production with
  | none => simp [hp] at h
  | some p =>
    simp only [hp, decide_eq_true_eq] at h ⊢
    exact decide_eq_true (by omega)

/-- The symbol after the dot. -/
def next (it : Item) : Option Symbol := Position.get? (it.body g) it.dot

/-- The symbols after the one that the dot stands before. -/
def rest (it : Item) : List Symbol := Position.suffixFrom (it.body g) (it.dot + 1)

/-- The symbol after the dot of an item within the grammar. -/
def next? (it : Item) : Option (Option Symbol) := if it.isWithin g then some (it.next g) else none

/-- Whether the dot of an item stands at the end, if the production exists. -/
def isComplete? (it : Item) : Option Bool :=
  (g.production? it.production).map fun p => it.dot = p.body.length

end Item

/-! ## Listing -/

/-- Why an item cannot be listed. -/
inductive ItemFault where
  /-- There is no such production. -/
  | noProduction
  /-- The position of the dot is no word, so that nothing can be put there. -/
  | farDot
  /-- The lookahead is no symbol, so that it has no name. -/
  | namelessLookahead
deriving DecidableEq

/-- A production as it is listed, with a dot at a position of its body. -/
def Production.dottedText {α : Type} (p : Production α) (dot : Int) : Except ItemFault String :=
  match Position.insertAt? (p.body.map Symbol.name) dot "." with
  | none => .error .farDot
  | some names => .ok (s!"{p.head.name} -> " ++ " ".intercalate names)

/-- The production at a position as it is listed, with a dot at a position of its body. -/
def Grammar.dottedText {α : Type} (g : Grammar α) (production dot : Int) : Except ItemFault String :=
  match g.production? production with
  | none => .error .noProduction
  | some p => p.dottedText dot

/-- An item as it is listed. -/
def Item.text {α : Type} (g : Grammar α) (it : Item) : Except ItemFault String := do
  let rule ← g.dottedText it.production it.dot
  return s!"{rule}, {it.lookahead.plainForm}"

end CanonicalLR
