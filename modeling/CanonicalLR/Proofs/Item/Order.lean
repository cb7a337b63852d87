import CanonicalLR.Item.Form

/-!
# Item sets have one form

Symbols are ordered by `Symbol.Precedes`, terminals before non-terminals and then by name, and items with symbols for
lookaheads by `Item.Precedes`, by production, dot and lookahead. Both are strict total orders, and the comparisons of
entries and of written items decide them, together with the tests of equality beside them (`totallyOrders_symbol`,
`totallyOrders_item`).

So the set of the items of a list holds each of them once, in the one order that they can stand in. Sets are equal just
if the lists have the same members, which is just if they are walked through in the same way, and a set lies within
another just if the members of its list do (`itemSets_have_one_form`).
-/

namespace CanonicalLR

/-! ## Orders -/

/-- A comparison, with a test of equality beside it, puts the values of a domain into a strict total order. -/
structure TotallyOrders {β : Type} (order? : β → β → Option Ordering) (agrees : β → β → Bool) (D : β → Prop)
    (Precedes : β → β → Prop) : Prop where
  /-- Values count as equal just if they are the same. -/
  agrees_iff : ∀ x y, D x → D y → (agrees x y = true ↔ x = y)
  /-- Of two values one precedes the other, or they are the same, -/
  total : ∀ x y, D x → D y → Precedes x y ∨ x = y ∨ Precedes y x
  /-- and only one of the three. -/
  exclusive : ∀ x y, D x → D y → Precedes x y → x ≠ y ∧ ¬Precedes y x
  trans : ∀ x y z, D x → D y → D z → Precedes x y → Precedes y z → Precedes x z
  /-- Any two values are comparable, and all comparisons tell the order. -/
  comparisons : ∀ x y, D x → D y → ∃ o, order? x y = some o ∧ (o.isLT = true ↔ Precedes x y) ∧
    (o.isLE = true ↔ Precedes x y ∨ x = y) ∧ (o.isGT = true ↔ Precedes y x) ∧ (o.isGE = true ↔ Precedes y x ∨ x = y)

/-- A lawful comparison puts values into the order that it finds them in. -/
theorem totallyOrders_of_compare {β : Type} [Ord β] [Std.TransOrd β] [Std.LawfulEqOrd β]
    {order? : β → β → Option Ordering} {agrees : β → β → Bool} {D : β → Prop} {Precedes : β → β → Prop}
    (horder : ∀ x y, D x → D y → order? x y = some (compare x y))
    (hagrees : ∀ x y, D x → D y → (agrees x y = true ↔ x = y))
    (hlt : ∀ x y, D x → D y → (compare x y = .lt ↔ Precedes x y)) : TotallyOrders order? agrees D Precedes := by
  have heq (x y : β) : compare x y = .eq ↔ x = y := Std.LawfulEqOrd.compare_eq_iff_eq
  have hgt (x y : β) (hx : D x) (hy : D y) : compare x y = .gt ↔ Precedes y x :=
    Std.OrientedCmp.gt_iff_lt.trans (hlt y x hy hx)
  refine ⟨hagrees, fun x y hx hy => ?_, fun x y hx hy h => ?_, fun x y z hx hy hz hxy hyz => ?_,
    fun x y hx hy => ⟨_, horder x y hx hy, ?_⟩⟩
  · rw [← hlt x y hx hy, ← heq x y, ← hgt x y hx hy]
    cases compare x y <;> simp
  · rw [← hlt x y hx hy] at h
    rw [ne_eq, ← heq x y, ← hgt x y hx hy, h]
    simp
  · rw [← hlt x y hx hy] at hxy
    rw [← hlt y z hy hz] at hyz
    exact (hlt x z hx hz).mp (Std.TransCmp.lt_trans hxy hyz)
  · rw [← hlt x y hx hy, ← heq x y, ← hgt x y hx hy]
    cases compare x y <;> simp

/-! ## Symbols -/

/-- Terminals come before non-terminals, and those of one kind in the order of their names. -/
inductive Symbol.Precedes : Symbol → Symbol → Prop
  | terminals {t u : Terminal} : t.name < u.name → Symbol.Precedes (.terminal t) (.terminal u)
  | kinds {t : Terminal} {n : NonTerminal} : Symbol.Precedes (.terminal t) (.nonterminal n)
  | nonterminals {n m : NonTerminal} : n.name < m.name → Symbol.Precedes (.nonterminal n) (.nonterminal m)

theorem Symbol.compare_eq_lt_iff {x y : Symbol} : compare x y = .lt ↔ x.Precedes y := by
  have hcompare : compare x y = (compare x.rank y.rank).then (compare x.name y.name) := rfl
  have hname : compare x.name y.name = .lt ↔ x.name < y.name := compareOfLessAndEq_eq_lt
  rw [hcompare, Ordering.then_eq_lt, Nat.compare_eq_lt, Nat.compare_eq_eq, hname]
  constructor
  · intro h
    cases x with
    | terminal t =>
      cases y with
      | terminal u => exact .terminals (h.resolve_left (Nat.lt_irrefl 0)).2
      | nonterminal n => exact .kinds
    | nonterminal n =>
      cases y with
      | terminal t => exact absurd h (by simp [rank])
      | nonterminal m => exact .nonterminals (h.resolve_left (Nat.lt_irrefl 1)).2
  · rintro (h | _ | h)
    · exact .inr ⟨rfl, h⟩
    · exact .inl Nat.zero_lt_one
    · exact .inr ⟨rfl, h⟩

/-- **Symbols are totally ordered.** -/
theorem totallyOrders_symbol :
    TotallyOrders (fun x y : Symbol => (Datum.symbol x).order? (.symbol y))
      (fun x y => (Datum.symbol x).agrees (.symbol y)) (fun _ => True) Symbol.Precedes :=
  totallyOrders_of_compare (fun _ _ _ _ => rfl) (fun _ _ _ _ => decide_eq_true_iff)
    fun _ _ _ _ => Symbol.compare_eq_lt_iff

/-! ## Items -/

namespace Item

/-- The item as it is written. -/
def form (it : Item) : ItemForm := ⟨it.production, it.dot, it.lookahead.entry⟩

/-- The lookahead is a symbol. -/
def HasSymbol (it : Item) : Prop := it.lookahead.symbol?.isSome

instance (it : Item) : Decidable it.HasSymbol := inferInstanceAs (Decidable (it.lookahead.symbol?.isSome = true))

/-- Items stand in the order of their productions, then of their dots, then of their lookaheads. -/
inductive Precedes : Item → Item → Prop
  | production {it it' : Item} : it.production < it'.production → Precedes it it'
  | dot {it it' : Item} : it.production = it'.production → it.dot < it'.dot → Precedes it it'
  | lookahead {p d : Int} {x y : Symbol} : x.Precedes y → Precedes ⟨p, d, .symbol x⟩ ⟨p, d, .symbol y⟩

theorem HasSymbol.exists_eq {it : Item} (h : it.HasSymbol) : ∃ p d x, it = ⟨p, d, .symbol x⟩ := by
  obtain ⟨p, d, k⟩ := it
  cases k with
  | symbol x => exact ⟨p, d, x, rfl⟩
  | _ => cases h

theorem compare_eq_lt_iff {it it' : Item} (h : it.HasSymbol) (h' : it'.HasSymbol) :
    compare it it' = .lt ↔ it.Precedes it' := by
  obtain ⟨p, d, x, rfl⟩ := h.exists_eq
  obtain ⟨q, e, y, rfl⟩ := h'.exists_eq
  rw [compare_eq, Ordering.then_eq_lt, Ordering.then_eq_lt, Int.compare_eq_lt, Int.compare_eq_eq, Int.compare_eq_lt,
    Int.compare_eq_eq, Key.compare_symbol, Symbol.compare_eq_lt_iff]
  constructor
  · rintro (hp | ⟨hp, hd | ⟨hd, hxy⟩⟩)
    · exact .production hp
    · exact .dot hp hd
    · obtain rfl : p = q := hp
      obtain rfl : d = e := hd
      exact .lookahead hxy
  · rintro (hp | ⟨hp, hd⟩ | hxy)
    · exact .inl hp
    · exact .inr ⟨hp, .inl hd⟩
    · exact .inr ⟨rfl, .inr ⟨rfl, hxy⟩⟩

theorem agrees_form_iff {it it' : Item} (h : it.HasSymbol) (h' : it'.HasSymbol) :
    it.form.agrees it'.form = true ↔ it = it' := by
  obtain ⟨p, d, x, rfl⟩ := h.exists_eq
  obtain ⟨q, e, y, rfl⟩ := h'.exists_eq
  show ItemForm.agrees ⟨p, d, .symbol x⟩ ⟨q, e, .symbol y⟩ = true ↔ _
  simp [ItemForm.agrees, Datum.agrees, and_assoc]

/-- **Items with symbols for lookaheads are totally ordered.** -/
theorem totallyOrders_item :
    TotallyOrders (fun it it' : Item => it.form.order? it'.form) (fun it it' => it.form.agrees it'.form) HasSymbol
      Precedes := by
  refine totallyOrders_of_compare (fun it it' h h' => ?_) (fun _ _ => agrees_form_iff) fun _ _ => compare_eq_lt_iff
  obtain ⟨p, d, x, rfl⟩ := h.exists_eq
  obtain ⟨q, e, y, rfl⟩ := h'.exists_eq
  exact ItemForm.order?_symbol

end Item

/-! ## Sets -/

namespace ItemSet

variable {items items' : List Item} {s t : ItemSet}

/-- The set holds the items of the list, each once and all in order. -/
structure IsFormOf (s : ItemSet) (items : List Item) : Prop where
  increasing : s.toList.Pairwise Item.Precedes
  mem_iff : ∀ it, it ∈ s.toList ↔ it ∈ items

theorem isFormOf_ofList (h : ∀ it ∈ items, it.HasSymbol) : IsFormOf (.ofList items) items where
  increasing := (SortedSet.ofList items).increasing.imp_of_mem fun hit hit' hlt =>
    (Item.compare_eq_lt_iff (h _ (SortedSet.mem_ofList.mp hit)) (h _ (SortedSet.mem_ofList.mp hit'))).mp hlt
  mem_iff _ := SortedSet.mem_ofList

/-- Sets of lists are the same just if the lists have the same members. -/
theorem ofList_eq_iff : (.ofList items : ItemSet) = .ofList items' ↔ ∀ it, it ∈ items ↔ it ∈ items' := by
  constructor
  · intro h it
    rw [← SortedSet.mem_ofList, h, SortedSet.mem_ofList]
  · exact fun h => SortedSet.ext_mem fun it => by rw [SortedSet.mem_ofList, SortedSet.mem_ofList, h]

theorem toList_eq_iff : s.toList = t.toList ↔ s = t :=
  ⟨fun h => SortedSet.ext_mem fun it => by rw [SortedSet.mem_def, h, SortedSet.mem_def], congrArg SortedSet.toList⟩

theorem normal_ofList (h : ∀ it ∈ items, it.HasSymbol) : normal (.ofList items) = .ofList items :=
  normal_eq_self (hasSymbols_iff.mpr fun it hit => h it (SortedSet.mem_ofList.mp hit))

/-- Two sets compare as the lists do that they are made of. -/
structure CompareAs (s t : ItemSet) (items items' : List Item) : Prop where
  /-- They count as equal just if the lists have the same members, -/
  eq_iff : s.normal = t.normal ↔ ∀ it, it ∈ items ↔ it ∈ items'
  /-- which is just if they are walked through in the same way. -/
  toList_eq_iff : s.toList = t.toList ↔ ∀ it, it ∈ items ↔ it ∈ items'
  /-- The first lies within the second just if every member of the first list is one of the second. -/
  isSubset_iff : s.normal.isSubset t.normal = true ↔ ∀ it ∈ items, it ∈ items'

theorem compareAs_ofList (h : ∀ it ∈ items, it.HasSymbol) (h' : ∀ it ∈ items', it.HasSymbol) :
    CompareAs (.ofList items) (.ofList items') items items' where
  eq_iff := by rw [normal_ofList h, normal_ofList h', ofList_eq_iff]
  toList_eq_iff := by rw [ItemSet.toList_eq_iff, ofList_eq_iff]
  isSubset_iff := by
    rw [normal_ofList h, normal_ofList h', SortedSet.isSubset_iff]
    simp only [SortedSet.mem_ofList]

end ItemSet

/-- **Item sets have one form.** Symbols and items are totally ordered, and the set of the items of a list, which there
always is, holds them in order and each once. It tells the members of the list and nothing else. -/
theorem itemSets_have_one_form :
    TotallyOrders (fun x y : Symbol => (Datum.symbol x).order? (.symbol y))
      (fun x y => (Datum.symbol x).agrees (.symbol y)) (fun _ => True) Symbol.Precedes ∧
    TotallyOrders (fun it it' : Item => it.form.order? it'.form) (fun it it' => it.form.agrees it'.form) Item.HasSymbol
      Item.Precedes ∧
    ∀ items items' : List Item, (∀ it ∈ items, it.HasSymbol) → (∀ it ∈ items', it.HasSymbol) →
      ∃ s t, ItemSet.collect items = .ok s ∧ ItemSet.collect items' = .ok t ∧ s.IsFormOf items ∧ t.IsFormOf items' ∧
        s.CompareAs t items items' :=
  ⟨totallyOrders_symbol, Item.totallyOrders_item, fun _ _ h h' =>
    ⟨_, _, ItemSet.collect_eq_ofList h, ItemSet.collect_eq_ofList h', ItemSet.isFormOf_ofList h,
      ItemSet.isFormOf_ofList h', ItemSet.compareAs_ofList h h'⟩⟩

/-- Neither the order of items nor a repetition makes a difference. -/
theorem ItemSet.collect_reordered : ∃ s t,
    collect [initialItem.advance, initialItem, initialItem.advance] = .ok s ∧
      collect [initialItem, initialItem.advance] = .ok t ∧ s.normal = t.normal ∧ s.toList = t.toList := by
  obtain ⟨s, t, hs, ht, -, -, h⟩ := itemSets_have_one_form.2.2 [initialItem.advance, initialItem, initialItem.advance]
    [initialItem, initialItem.advance] (by decide) (by decide)
  have hmem : ∀ it, it ∈ [initialItem.advance, initialItem, initialItem.advance] ↔
      it ∈ [initialItem, initialItem.advance] := fun it => by
    simp only [List.mem_cons, List.not_mem_nil, or_false]
    grind
  exact ⟨s, t, hs, ht, h.eq_iff.mpr hmem, h.toList_eq_iff.mpr hmem⟩

end CanonicalLR
