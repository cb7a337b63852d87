import CanonicalLR.Lookup
import CanonicalLR.Item.Closure

/-!
# Written items

An item may be written with any entry for its lookahead, as long as that is a key. Items count as equal if their normal
forms are the same. A set of items needs an order of all lookaheads that share a production and a dot; so do its closure
and its goto, which may bring terminals together with a lookahead that is no symbol. Goto looks nothing up but compares:
over another value it moves no item, and over nothing the items whose dot is at the end.

Where all lookaheads are symbols there is always an order, items count as equal only if they are the same, and the
answers are those of `closure?`, `goto?` and `stateOf?` (`closed_eq_closure?`, `gotoOver_symbol`,
`stateAt_eq_stateOf?`).
-/

namespace CanonicalLR

/-- An item as it is written: its lookahead may be any entry. -/
structure ItemForm where
  production : Int
  dot : Int
  lookahead : Datum
deriving DecidableEq

namespace ItemForm

/-- Whether two items count as equal. -/
def agrees (f f' : ItemForm) : Bool :=
  f.production = f'.production && f.dot = f'.dot && f.lookahead.agrees f'.lookahead

/-- The order of two items, by production, dot and lookahead. Lookaheads that count as equal need no order. -/
def order? (f f' : ItemForm) : Option Ordering :=
  match (compare f.production f'.production).then (compare f.dot f'.dot) with
  | .eq => if f.lookahead.agrees f'.lookahead then some .eq else f.lookahead.order? f'.lookahead
  | o => some o

/-- The item that is written. -/
def item (f : ItemForm) : Except LookupFault Item :=
  f.lookahead.key?.elim (.error .composite) fun k => .ok ⟨f.production, f.dot, k⟩

/-- On items with symbols for lookaheads this is the order of items. -/
theorem order?_symbol {p q d e : Int} {x y : Symbol} :
    (⟨p, d, .symbol x⟩ : ItemForm).order? ⟨q, e, .symbol y⟩ =
      some (compare (⟨p, d, .symbol x⟩ : Item) ⟨q, e, .symbol y⟩) := by
  have hc : compare (⟨p, d, .symbol x⟩ : Item) ⟨q, e, .symbol y⟩ =
      ((compare p q).then (compare d e)).then (compare x y) := by
    rw [← Key.compare_symbol, Ordering.then_assoc]
    rfl
  simp only [order?, hc]
  cases (compare p q).then (compare d e) <;> simp [Ordering.then, Datum.agrees, Datum.order?]
  rintro rfl
  exact Std.compare_self.symm

end ItemForm

/-! ## Sets -/

/-- The item with its lookahead in normal form. -/
def Item.normal (it : Item) : Item := { it with lookahead := it.lookahead.normal }

theorem Item.normal_eq_self {it : Item} (h : it.lookahead.symbol?.isSome) : it.normal = it := by
  obtain ⟨p, d, k⟩ := it
  cases k <;> simp_all [Item.normal, Key.normal, Key.symbol?]

namespace ItemSet

/-- The set of the items of a list, if its lookaheads have the order that it needs. Of items that count as equal, which
only those with numbers for lookaheads can, it holds the first. -/
def collect (items : List Item) : Except LookupFault ItemSet :=
  let s : ItemSet := .ofList <| items.filter fun it =>
    it.lookahead.number?.isNone || items.find? (·.normal = it.normal) = some it
  if s.isOrderly then .ok s else .error .unordered

theorem collect_eq_ofList {items : List Item} (h : ∀ it ∈ items, it.lookahead.symbol?.isSome) :
    collect items = .ok (.ofList items) := by
  have hf : (items.filter fun it => it.lookahead.number?.isNone || items.find? (·.normal = it.normal) = some it) =
      items := by
    refine List.filter_eq_self.mpr fun it hit => ?_
    rw [Key.number?_isNone (h it hit)]
    rfl
  have ho : isOrderly (.ofList items) = true :=
    isOrderly_of_hasSymbols (hasSymbols_iff.mpr fun it hit => h it (SortedSet.mem_ofList.mp hit))
  simp only [collect, hf, ho, if_true]

/-- The set with all lookaheads in normal form. Sets count as equal if these are the same. -/
def normal (s : ItemSet) : ItemSet := .ofList (s.toList.map Item.normal)

theorem normal_eq_self {s : ItemSet} (h : s.hasSymbols) : s.normal = s := by
  have hs : s.toList.map Item.normal = s.toList :=
    (List.map_congr_left fun it hit => Item.normal_eq_self (hasSymbols_iff.mp h it hit)).trans (List.map_id _)
  exact SortedSet.ext_mem fun it => by rw [normal, hs, SortedSet.mem_ofList, SortedSet.mem_def]

end ItemSet

/-- The number of the last state that counts as equal to a given set. -/
def Automaton.stateAt {α : Type} (a : Automaton α) (s : ItemSet) : Option Nat :=
  (a.states.zipIdx.filter fun e => e.1.normal = s.normal).getLast?.map Prod.snd

/-! ## Closure and goto -/

variable {α : Type} (g : Grammar α)

/-- Whether an item calls for productions with terminals and also with a lookahead that is no symbol. -/
def Item.isMixing (it : Item) : Bool :=
  (it.next g).any (!·.isTerminal) && it.lookahead.symbol?.isNone &&
    g.derivesEmpty (it.rest g) && !(g.firstOfText (it.rest g)).isEmpty

/-- The entry after the dot of an item, which is nothing at the end. -/
def Item.entryAfterDot (it : Item) : Datum :=
  match it.next g with
  | some s => .symbol s
  | none => .value (.plain .nothing)

theorem Item.entryAfterDot_eq_symbol {it : Item} {x : Symbol} :
    it.entryAfterDot g = .symbol x ↔ it.next g = some x := by
  simp only [Item.entryAfterDot]
  split <;> simp_all

namespace ItemSet

/-- An item of a set and all that it calls for, as far as the set holds nothing that counts as equal. -/
def calledBy (s : ItemSet) (it : Item) : List Item :=
  let held := s.normal
  Search.reach (fun x => (x.expansion g).filter (·.normal ∉ held)) (closureBound g [it]) [it]

/-- What keeps the closure of a set from being formed. The items are taken last to first, each with all that it calls
for. -/
def closureFault? (s : ItemSet) : Option LookupFault :=
  s.toList.reverse.findSome? fun it =>
    if !it.isWithin g then some .noPlace
    else if it.lookahead.symbol?.isNone && (s.calledBy g it).any (·.isMixing g) then some .unordered
    else none

/-- The closure of a set. It fails too if lookaheads that come together at the end have no order. -/
def closed (s : ItemSet) : Except LookupFault ItemSet :=
  match s.closureFault? g with
  | some e => .error e
  | none =>
    if s.hasSymbols then .ok (closure g s.toList)
    else collect (s.toList ++ s.toList.reverse.flatMap (s.calledBy g))

/-- The goto of a set over an entry. -/
def gotoOver (s : ItemSet) (d : Datum) : Except LookupFault ItemSet := do
  if s.isWithin g then
    (← collect ((s.toList.filter fun it => it.entryAfterDot g = d).map Item.advance)).closed g
  else throw .noPlace

end ItemSet

/-! ## Symbols as lookaheads -/

namespace ItemSet

variable {g} {s : ItemSet}

theorem closureFault?_eq_none_iff (h : s.hasSymbols) : s.closureFault? g = none ↔ s.isWithin g := by
  simp only [closureFault?, List.findSome?_eq_none_iff, List.mem_reverse, isWithin, List.all_eq_true]
  refine forall₂_congr fun it hit => ?_
  have hn : it.lookahead.symbol?.isNone = false := by simpa using hasSymbols_iff.mp h it hit
  cases it.isWithin g <;> simp [hn]

theorem closureFault?_eq_noPlace (h : s.hasSymbols) {e : LookupFault} (he : s.closureFault? g = some e) :
    e = .noPlace := by
  obtain ⟨it, hit, he⟩ := List.exists_of_findSome?_eq_some he
  have hn : it.lookahead.symbol?.isNone = false := by
    simpa using hasSymbols_iff.mp h it (List.mem_reverse.mp hit)
  cases hw : it.isWithin g <;> simp_all

/-- With symbols for lookaheads, closure fails only on an item outside the grammar. -/
theorem closed_eq_closure? (h : s.hasSymbols) : s.closed g = (closure? g s.toList).elim (.error .noPlace) .ok := by
  simp only [closed, closure?]
  cases he : s.closureFault? g with
  | none =>
    have hw : (s.toList.all fun it => it.isWithin g) = true := (closureFault?_eq_none_iff h).mp he
    rw [if_pos hw, if_pos h]
    rfl
  | some e =>
    have hw : ¬(s.toList.all fun it => it.isWithin g) = true := fun hw => by
      rw [(closureFault?_eq_none_iff h).mpr hw] at he
      cases he
    rw [if_neg hw, closureFault?_eq_noPlace h he]
    rfl

/-- With symbols for lookaheads, goto over a symbol fails only on an item outside the grammar. -/
theorem gotoOver_symbol (h : s.hasSymbols) {x : Symbol} :
    s.gotoOver g (.symbol x) = (goto? g s.toList x).elim (.error .noPlace) .ok := by
  let moved := (s.toList.filter fun it => it.next g = some x).map Item.advance
  have hm : ∀ it ∈ moved, ∃ source ∈ s, source.advance = it := fun it hit =>
    let ⟨source, hs, he⟩ := List.mem_map.mp hit
    ⟨source, (List.mem_filter.mp hs).1, he⟩
  have hl : ∀ it ∈ moved, it.lookahead.symbol?.isSome := fun it hit => by
    obtain ⟨source, hs, rfl⟩ := hm it hit
    exact hasSymbols_iff.mp h source hs
  have hp : moved.Pairwise fun a b => compare a b = .lt :=
    List.pairwise_map.mpr <| (s.increasing.filter _).imp fun hab => Item.compare_advance.trans hab
  have hc : hasSymbols (.ofList moved) = true :=
    hasSymbols_iff.mpr fun it hit => hl it (SortedSet.mem_ofList.mp hit)
  simp only [gotoOver, goto?, isWithin, Item.entryAfterDot_eq_symbol]
  split
  · rename_i hw
    have hin : (moved.all fun it => it.isWithin g) = true := List.all_eq_true.mpr fun it hit => by
      obtain ⟨source, hs, rfl⟩ := hm it hit
      exact Item.isWithin_advance g (List.all_eq_true.mp hw source hs)
    show (collect moved >>= fun t => t.closed g) = _
    rw [collect_eq_ofList hl]
    show closed g (.ofList moved) = _
    rw [closed_eq_closure? hc, SortedSet.toList_ofList hp, closure?, if_pos hin]
    rfl
  · rfl

/-- A set with symbols for lookaheads counts as equal to no other. -/
theorem normal_eq_normal_iff (h : s.hasSymbols) {t : ItemSet} : t.normal = s.normal ↔ t = s := by
  refine ⟨fun e => ?_, fun e => by rw [e]⟩
  rw [normal_eq_self h] at e
  have ht : t.hasSymbols = true := hasSymbols_iff.mpr fun it hit => by
    have hn : it.normal ∈ s := e ▸ SortedSet.mem_ofList.mpr (List.mem_map_of_mem hit)
    exact Key.symbol?_normal ▸ hasSymbols_iff.mp h it.normal hn
  rw [← e, normal_eq_self ht]

theorem stateAt_eq_stateOf? {a : Automaton α} (h : s.hasSymbols) : a.stateAt s = a.stateOf? s := by
  simp only [Automaton.stateAt, Automaton.stateOf?, normal_eq_normal_iff h]

end ItemSet

end CanonicalLR
