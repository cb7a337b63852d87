import CanonicalLR.Proofs.Item.Least

/-!
# Closure and goto item by item

The work list of a closure mixes what different items call for. Still each item of a closure goes back to one of the
given items (`Search.reached_iff_exists`), so the closure of two collections together is the union of their closures
(`closure_union`), and with it the goto (`goto_union`).

All that a closure adds are rules with the dot in front: no body calls for production 0, and no dot moves
(`mem_or_isFresh_of_mem_closure`). So the kernel of a closure is made of the given items (`mem_kernel_closure_iff`), and
that of a goto of the items moved over the symbol (`mem_kernel_goto_iff`).
-/

namespace CanonicalLR

open Grammar

variable {α : Type} {g : Grammar α} {items items' both : List Item} {it it' : Item} {s : ItemSet} {x : Symbol}

/-! ## Placed items -/

theorem Item.IsPlaced.isWithin (h : it.IsPlaced g) : it.isWithin g = true := isWithin_of_nonneg h.1 h.2.1 h.2.2.1

theorem Item.IsPlaced.advance (h : it.IsPlaced g) : it.advance.IsPlaced g := by
  obtain ⟨hnn, hlt, hd, t, ht⟩ := h
  refine ⟨hnn, hlt, ?_, t, ht⟩
  show 0 ≤ it.dot + 1
  omega

/-- Placed items have a goto. -/
theorem goto?_of_isPlaced (h : ∀ it ∈ items, it.IsPlaced g) : goto? g items x = some (goto g items x) :=
  if_pos (List.all_eq_true.mpr fun it hit => (h it hit).isWithin)

/-- The symbols after the dots of placed items can be listed. -/
theorem nextSymbols?_of_isPlaced (h : ∀ it ∈ s, it.IsPlaced g) : s.nextSymbols? g = some (s.nextSymbols g) :=
  if_pos (List.all_eq_true.mpr fun it hit => (h it hit).isWithin)

/-! ## Unions -/

/-- An item of a closure goes back to one of the given items. -/
theorem mem_closure_iff_exists : it ∈ closure g items ↔ ∃ seed ∈ items, it ∈ closure g [seed] := by
  simp only [mem_closure_iff]
  exact Search.reached_iff_exists

/-- **The closure of two collections together is the union of their closures.** -/
theorem closure_union (h : ∀ it, it ∈ both ↔ it ∈ items ∨ it ∈ items') :
    closure g both = (closure g items).union (closure g items') := by
  refine SortedSet.ext_mem fun it => ?_
  rw [SortedSet.mem_union]
  calc it ∈ closure g both
    _ ↔ ∃ seed ∈ both, it ∈ closure g [seed] := mem_closure_iff_exists
    _ ↔ (∃ seed ∈ items, it ∈ closure g [seed]) ∨ ∃ seed ∈ items', it ∈ closure g [seed] := by
      simp only [h, or_and_right, exists_or]
    _ ↔ it ∈ closure g items ∨ it ∈ closure g items' :=
      or_congr mem_closure_iff_exists.symm mem_closure_iff_exists.symm

theorem mem_moved_iff : it ∈ (items.filter fun it => it.next g = some x).map Item.advance ↔
    ∃ source ∈ items, source.next g = some x ∧ it = source.advance := by
  simp only [List.mem_map, List.mem_filter, decide_eq_true_eq, and_assoc]
  exact exists_congr fun source => and_congr_right' (and_congr_right' eq_comm)

/-- **The goto of two collections together is the union of their gotos.** -/
theorem goto_union (h : ∀ it, it ∈ both ↔ it ∈ items ∨ it ∈ items') :
    goto g both x = (goto g items x).union (goto g items' x) := by
  refine closure_union fun it => ?_
  simp only [mem_moved_iff, h, or_and_right, exists_or]

/-! ## Kernels -/

theorem mem_kernel_iff : it ∈ s.kernel ↔ it ∈ s ∧ (0 < it.dot ∨ it.production = 0) := by
  rw [ItemSet.kernel, SortedSet.mem_filter, Bool.or_eq_true, decide_eq_true_iff, decide_eq_true_iff]

/-- The item is a rule with the dot in front. -/
def Item.IsFresh (it : Item) : Prop := it.dot = 0 ∧ 1 ≤ it.production

/-- What an item asks for is a rule with the dot in front: production 0 has a head that stands in no body. -/
theorem Grammar.AsksFor.isFresh (h : g.AsksFor it it') : it'.IsFresh := by
  cases h with
  | @intro p q a b t u hp hq hb _ =>
    have hmem : .nonterminal q.head ∈ p.body := hb ▸ List.mem_append_right a List.mem_cons_self
    have hne : q.number ≠ 0 := by
      intro h
      apply ne_augmentedStart_of_mem_body hp hmem
      rw [(number_eq_zero_iff hq).mp h]
      rfl
    have hpos : 1 ≤ q.number := by omega
    exact ⟨rfl, Int.ofNat_le.mpr hpos⟩

/-- A closure adds rules with the dot in front only. -/
theorem mem_or_isFresh_of_mem_closure (h : ∀ it ∈ items, it.IsPlaced g) :
    ∀ it ∈ closure g items, it ∈ items ∨ it.IsFresh := by
  have hboth : ∀ it ∈ closure g items, it.IsPlaced g ∧ (it ∈ items ∨ it.IsFresh) := by
    refine closure_induction (fun it hit => ⟨h it hit, .inl hit⟩) fun it hit it' hx => ?_
    have hasks := (mem_expansion_iff_asksFor hit.1).mp hx
    exact ⟨hasks.isPlaced, .inr hasks.isFresh⟩
  exact fun it hit => (hboth it hit).2

theorem Item.IsFresh.notMem_kernel (h : it.IsFresh) : it ∉ s.kernel := by
  intro hit
  obtain ⟨hd, hp⟩ := h
  rcases (mem_kernel_iff.mp hit).2 with h | h <;> omega

/-- The kernel of a closure is that of the given items. -/
theorem mem_kernel_closure_iff (h : ∀ it ∈ items, it.IsPlaced g) :
    it ∈ (closure g items).kernel ↔ it ∈ items ∧ (0 < it.dot ∨ it.production = 0) := by
  constructor
  · intro hit
    obtain ⟨hmem, hkernel⟩ := mem_kernel_iff.mp hit
    rcases mem_or_isFresh_of_mem_closure h it hmem with hitems | hfresh
    · exact ⟨hitems, hkernel⟩
    · exact absurd hit hfresh.notMem_kernel
  · rintro ⟨hitems, hkernel⟩
    exact mem_kernel_iff.mpr ⟨mem_closure_of_mem hitems, hkernel⟩

theorem isPlaced_moved (h : ∀ it ∈ items, it.IsPlaced g) :
    ∀ it ∈ (items.filter fun it => it.next g = some x).map Item.advance, it.IsPlaced g := by
  intro it hit
  obtain ⟨source, hs, -, rfl⟩ := mem_moved_iff.mp hit
  exact (h source hs).advance

/-- **The kernel of a goto is made of the items before the symbol, moved over it.** -/
theorem mem_kernel_goto_iff (h : ∀ it ∈ items, it.IsPlaced g) :
    it ∈ (goto g items x).kernel ↔ ∃ source ∈ items, source.next g = some x ∧ it = source.advance := by
  rw [goto, mem_kernel_closure_iff (isPlaced_moved h), mem_moved_iff]
  refine and_iff_left_of_imp ?_
  rintro ⟨source, hs, -, rfl⟩
  have hd := (h source hs).2.2.1
  left
  show 0 < source.dot + 1
  omega

/-- All else in a goto are rules with the dot in front. -/
theorem isFresh_of_mem_goto (h : ∀ it ∈ items, it.IsPlaced g) (hit : it ∈ goto g items x)
    (hk : it ∉ (goto g items x).kernel) : it.IsFresh := by
  refine (mem_or_isFresh_of_mem_closure (isPlaced_moved h) it hit).resolve_left fun hmoved => hk ?_
  exact (mem_kernel_goto_iff h).mpr (mem_moved_iff.mp hmoved)

/-- A goto over a symbol is empty just if the symbol stands after no dot. -/
theorem isEmpty_goto_iff : (goto g items x).isEmpty = true ↔ x ∉ (ItemSet.nextSymbols g (.ofList items)) := by
  have hsame : goto g items x = goto g (SortedSet.ofList items).toList x := by
    refine closure_congr fun it => ?_
    simp only [mem_moved_iff, ← SortedSet.mem_def, SortedSet.mem_ofList]
  rw [SortedSet.isEmpty_iff, hsame, exists_mem_goto_iff]

/-! ## Item by item -/

/-- Closure and goto over a symbol take two collections of items together item by item, and goto makes one step. -/
structure GoItemByItem (g : Grammar α) (items items' : List Item) (x : Symbol) : Prop where
  /-- The closure of both together is the union of the closures. -/
  closure_union : ∃ s s', closure? g items = some s ∧ closure? g items' = some s' ∧
    ∀ both, (∀ it, it ∈ both ↔ it ∈ items ∨ it ∈ items') → closure? g both = some (s.union s')
  /-- The goto of both together is the union of the gotos. -/
  goto_union : ∃ s s', goto? g items x = some s ∧ goto? g items' x = some s' ∧
    ∀ both, (∀ it, it ∈ both ↔ it ∈ items ∨ it ∈ items') → goto? g both x = some (s.union s')
  /-- The goto of a collection is empty just if the symbol stands after no dot. -/
  isEmpty_iff : ∃ s xs, goto? g items x = some s ∧ ItemSet.nextSymbols? g (.ofList items) = some xs ∧
    (s.isEmpty = true ↔ x ∉ xs)
  /-- Its kernel is made of the items with the symbol after the dot, moved over it, and all else in it are rules with
  the dot in front. -/
  kernel : ∃ s, goto? g items x = some s ∧
    (∀ it, it ∈ s.kernel ↔ ∃ source ∈ items, source.next? g = some (some x) ∧ it = source.advance) ∧
    ∀ it ∈ s, it ∉ s.kernel → it.dot = 0 ∧ 1 ≤ it.production

/-- **Closure and goto of placed items go item by item.** -/
theorem goItemByItem (h : ∀ it ∈ items, it.IsPlaced g) (h' : ∀ it ∈ items', it.IsPlaced g) (x : Symbol) :
    GoItemByItem g items items' x := by
  have hplaced (both : List Item) (hboth : ∀ it, it ∈ both ↔ it ∈ items ∨ it ∈ items') :
      ∀ it ∈ both, it.IsPlaced g := fun it hit => ((hboth it).mp hit).elim (h it) (h' it)
  refine ⟨⟨_, _, closure?_of_isPlaced h, closure?_of_isPlaced h', fun both hboth => ?_⟩,
    ⟨_, _, goto?_of_isPlaced h, goto?_of_isPlaced h', fun both hboth => ?_⟩,
    ⟨_, _, goto?_of_isPlaced h, nextSymbols?_of_isPlaced fun it hit => h it (SortedSet.mem_ofList.mp hit),
      isEmpty_goto_iff⟩,
    ⟨_, goto?_of_isPlaced h, fun it => ?_, fun it hit hk => isFresh_of_mem_goto h hit hk⟩⟩
  · rw [closure?_of_isPlaced (hplaced both hboth), closure_union hboth]
  · rw [goto?_of_isPlaced (hplaced both hboth), goto_union hboth]
  · rw [mem_kernel_goto_iff h]
    refine exists_congr fun source => and_congr_right fun hs => and_congr_left fun _ => ?_
    rw [Item.next?, if_pos (h source hs).isWithin, Option.some.injEq]

namespace Sums

/-- The items before a sum, one of which calls for the rules of sums, and one with its dot beyond the end. -/
def beforeSum : List Item := [⟨1, 2, endMark⟩, ⟨0, 0, endMark⟩, ⟨1, 5, .terminal plus⟩]

/-- An item behind a sum. -/
def behindSum : List Item := [⟨1, 1, .terminal one⟩]

/-- Over a sum the items before it move, and no item behind it does. -/
theorem goItemByItem_sums : GoItemByItem grammar beforeSum behindSum sum ∧
    (goto grammar beforeSum sum).kernel.toList = [⟨0, 1, endMark⟩, ⟨1, 3, endMark⟩] ∧
    (goto grammar behindSum sum).isEmpty = true := by
  have hbefore : ∀ it ∈ beforeSum, it.IsPlaced grammar := by
    intro it hit
    simp only [beforeSum, List.mem_cons, List.not_mem_nil, or_false] at hit
    rcases hit with rfl | rfl | rfl
    · exact ⟨by decide, by decide, by decide, endMark, rfl⟩
    · exact ⟨by decide, by decide, by decide, endMark, rfl⟩
    · exact ⟨by decide, by decide, by decide, plus, rfl⟩
  have hbehind : ∀ it ∈ behindSum, it.IsPlaced grammar := by
    intro it hit
    rw [List.mem_singleton.mp hit]
    exact ⟨by decide, by decide, by decide, one, rfl⟩
  exact ⟨goItemByItem hbefore hbehind sum, by decide +kernel, by decide +kernel⟩

end Sums

end CanonicalLR
