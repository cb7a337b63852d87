import CanonicalLR.Item.Basic

/-!
# Item sets

A set of items, which is one state of the automaton. Its items stand in their order, by production, dot and
lookahead, so those that share a core stand together.
-/

namespace CanonicalLR

/-- A set of items. -/
abbrev ItemSet := SortedSet Item

namespace ItemSet

/-- The form of an item set in messages. -/
def debugForm (s : ItemSet) : String := "ItemSet([" ++ ", ".intercalate (s.toList.map Item.debugForm) ++ "])"

/-- The items that are no product of closure: those with the dot not at the start, and those of production 0. -/
def kernel (s : ItemSet) : ItemSet := s.filter fun it => 0 < it.dot || it.production = 0

/-- Whether every two lookaheads of the same production and dot have an order. Lookaheads that have one stand next to
each other, so neighbours tell. -/
def isOrderly (s : ItemSet) : Bool :=
  (s.toList.zip s.toList.tail).all fun e => e.1.core ≠ e.2.core || (e.1.lookahead.order? e.2.lookahead).isSome

/-- Whether all lookaheads are symbols. -/
def hasSymbols (s : ItemSet) : Bool := s.toList.all fun it => it.lookahead.symbol?.isSome

theorem hasSymbols_iff {s : ItemSet} : s.hasSymbols = true ↔ ∀ it ∈ s, it.lookahead.symbol?.isSome := by
  simp [hasSymbols, SortedSet.mem_def]

theorem isOrderly_of_hasSymbols {s : ItemSet} (h : s.hasSymbols) : s.isOrderly = true := by
  rw [hasSymbols_iff] at h
  refine List.all_eq_true.mpr fun e he => ?_
  have hl := h e.1 (List.of_mem_zip he).1
  have hr := h e.2 (List.mem_of_mem_tail (List.of_mem_zip he).2)
  simp [Key.order?_isSome hl hr]

variable {α : Type} (g : Grammar α)

/-- Whether all items lie within the grammar. -/
def isWithin (s : ItemSet) : Bool := s.toList.all (·.isWithin g)

/-- The symbols after dots, in order of the items and each once. -/
def nextSymbols (s : ItemSet) : List Symbol := distinct (s.toList.filterMap (·.next g))

/-- The symbols after dots of items that all lie within the grammar. -/
def nextSymbols? (s : ItemSet) : Option (List Symbol) := if s.isWithin g then some (s.nextSymbols g) else none

/-- The productions and dots of the items, each pair once. -/
def cores (s : ItemSet) : List (Int × Int) := distinct (s.toList.map Item.core)

/-- The lookaheads of the items with a given production and dot, as far as they are symbols. -/
def lookaheadsOf (s : ItemSet) (core : Int × Int) : List Symbol :=
  (s.toList.filter fun it => it.core = core).filterMap fun it => it.lookahead.symbol?

/-- The line that lists the items with a given production and dot. -/
def coreLine (s : ItemSet) (core : Int × Int) : Except ItemFault String := do
  let rule ← g.dottedText core.1 core.2
  return s!"({core.1}) {rule}, " ++ "/".intercalate ((s.lookaheadsOf core).map Symbol.name)

/-- The listing of an item set, a line for each production and dot. Without a name for each lookahead there is none;
else the first production and dot that cannot be listed decide. -/
def lines (s : ItemSet) : Except ItemFault (List String) :=
  if s.hasSymbols then s.cores.mapM (s.coreLine g) else .error .namelessLookahead

end ItemSet

end CanonicalLR
