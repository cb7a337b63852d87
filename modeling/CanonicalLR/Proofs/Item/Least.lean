import CanonicalLR.Proofs.Automaton.Construction
import CanonicalLR.Proofs.Grammar.Exactness

/-!
# The closure is the least closed set

An item before a non-terminal asks for the productions of that non-terminal, with the terminals that the text behind it
begins with when the lookahead stands at the end (`Grammar.AsksFor`). This is a matter of derivations only, while
`Item.expansion` goes by what the analyses have found out.

The closure of items holds them, has all that its items ask for, and is part of every set that does both
(`isLeastClosed_closure`). So it does not matter in which order the items are given and how often, although the work
list takes them in order (`exists_closesTo`).
-/

namespace CanonicalLR

variable {α : Type}

namespace Grammar

/-- An item before a non-terminal asks for each production of it, with each terminal that the rest of the body and the
lookahead begin with. -/
inductive AsksFor (g : Grammar α) : Item → Item → Prop
  | intro {p q : Production α} {a b : List Symbol} {t u : Terminal} : p ∈ g.productions → q ∈ g.productions →
      p.body = a ++ .nonterminal q.head :: b → g.IsFirst (b ++ [.terminal t]) u →
      AsksFor g (p.item a.length t) (q.item 0 u)

/-- A set is closed if it has all that its items ask for. -/
def IsClosed (g : Grammar α) (S : Item → Prop) : Prop := ∀ it it', S it → g.AsksFor it it' → S it'

/-- A set holds the items, is closed, and is part of every closed set that holds them. -/
structure IsLeastClosed (g : Grammar α) (items : List Item) (s : ItemSet) : Prop where
  holds : ∀ it ∈ items, it ∈ s
  closed : g.IsClosed (· ∈ s)
  least : ∀ S : Item → Prop, (∀ it ∈ items, S it) → g.IsClosed S → ∀ it ∈ s, S it

variable {g : Grammar α} {rest : List Symbol} {t u : Terminal}

/-- What may follow is what the rest and the lookahead begin with. -/
theorem mayFollow_iff_isFirst : g.MayFollow rest t u ↔ g.IsFirst (rest ++ [.terminal t]) u := by
  have hlast : leading g.nullable [.terminal t] = [.terminal t] := by
    simp [leading]
  rw [IsFirst, ← mem_firstOfText_iff, mem_firstOfText_iff_beginsWith, MayFollow, mem_firstOfText_iff_beginsWith]
  simp only [mem_leading_append, hlast, List.mem_singleton]
  constructor
  · rintro (⟨s, hs, hb⟩ | ⟨he, rfl⟩)
    · exact ⟨s, .inl hs, hb⟩
    · exact ⟨.terminal u, .inr ⟨he, rfl⟩, beginsWith_terminal_iff.mpr rfl⟩
  · rintro ⟨s, hs | ⟨he, rfl⟩, hb⟩
    · exact .inl ⟨s, hs, hb⟩
    · exact .inr ⟨he, Symbol.terminal.inj (beginsWith_terminal_iff.mp hb)⟩

end Grammar

open Grammar

variable {g : Grammar α} {items items' : List Item} {it it' : Item}

/-! ## Placed items -/

/-- The item has a production that is counted from the start, a dot that is not to the left of its body, and a terminal
for its lookahead. The dot may lie beyond the end. -/
def Item.IsPlaced (g : Grammar α) (it : Item) : Prop :=
  0 ≤ it.production ∧ it.production < g.size ∧ 0 ≤ it.dot ∧ ∃ t : Terminal, it.lookahead = .terminal t

theorem isPlaced_iff : it.IsPlaced g ↔ ∃ p ∈ g.productions, ∃ k t, it = p.item k t := by
  constructor
  · rintro ⟨hnn, hlt, hd, t, ht⟩
    obtain ⟨p, hp, hnum⟩ := exists_number_eq hnn hlt
    obtain ⟨k, hk⟩ := Int.eq_ofNat_of_zero_le hd
    exact ⟨p, hp, k, t, by rw [Production.item, hnum, ← hk, ← ht]⟩
  · rintro ⟨p, hp, k, t, rfl⟩
    have hlt := (List.getElem?_eq_some_iff.mp (getElem?_number hp)).1
    exact ⟨Int.natCast_nonneg _, Int.ofNat_lt.mpr hlt, Int.natCast_nonneg _, t, rfl⟩

/-- What a placed item calls for is what it asks for. -/
theorem mem_expansion_iff_asksFor (h : it.IsPlaced g) : it' ∈ it.expansion g ↔ g.AsksFor it it' := by
  obtain ⟨p, hp, k, t, rfl⟩ := isPlaced_iff.mp h
  rw [mem_expansion_item_iff hp]
  constructor
  · rintro ⟨q, hq, hk, u, hu, rfl⟩
    obtain ⟨hlt, hx⟩ := List.getElem?_eq_some_iff.mp hk
    have hb : p.body = p.body.take k ++ .nonterminal q.head :: p.body.drop (k + 1) := by
      rw [← hx, List.getElem_cons_drop, List.take_append_drop]
    have hlen : (p.body.take k).length = k := List.length_take_of_le (Nat.le_of_lt hlt)
    have hasks := AsksFor.intro hp hq hb (mayFollow_iff_isFirst.mp hu)
    rwa [hlen] at hasks
  · intro hasks
    generalize he : p.item k t = source at hasks
    cases hasks with
    | @intro p' q a b t' u hp' hq hb hu =>
      obtain ⟨rfl, rfl, rfl⟩ := item_inj hp hp' he
      exact ⟨q, hq, by simp [hb], u, mayFollow_iff_isFirst.mpr (by simpa [hb] using hu), rfl⟩

theorem Grammar.AsksFor.isPlaced (h : g.AsksFor it it') : it'.IsPlaced g := by
  cases h with
  | @intro _ q _ _ _ u _ hq _ _ => exact isPlaced_iff.mpr ⟨q, hq, 0, u, rfl⟩

/-- All items in the closure of placed items are placed. -/
theorem isPlaced_of_mem_closure (h : ∀ it ∈ items, it.IsPlaced g) : ∀ it ∈ closure g items, it.IsPlaced g :=
  closure_induction h fun _ hit _ hx => ((mem_expansion_iff_asksFor hit).mp hx).isPlaced

/-- Placed items have a closure. -/
theorem closure?_of_isPlaced (h : ∀ it ∈ items, it.IsPlaced g) : closure? g items = some (closure g items) :=
  closure?_eq_some fun it hit => ⟨(h it hit).1, (h it hit).2.1, (h it hit).2.2.1⟩

/-! ## The least closed set -/

/-- **The closure of placed items is the least closed set that holds them.** -/
theorem isLeastClosed_closure (h : ∀ it ∈ items, it.IsPlaced g) : g.IsLeastClosed items (closure g items) where
  holds _ hit := mem_closure_of_mem hit
  closed _ _ hit hasks :=
    mem_closure_of_mem_expansion hit ((mem_expansion_iff_asksFor (isPlaced_of_mem_closure h _ hit)).mpr hasks)
  least S hitems hclosed := by
    -- an item calls for what it asks for only if it is placed, so this is carried along
    have hboth : ∀ it ∈ closure g items, it.IsPlaced g ∧ S it := by
      refine closure_induction (fun it hit => ⟨h it hit, hitems it hit⟩) fun it hit it' hx => ?_
      have hasks := (mem_expansion_iff_asksFor hit.1).mp hx
      exact ⟨hasks.isPlaced, hclosed _ _ hit.2 hasks⟩
    exact fun it hit => (hboth it hit).2

/-- A closure is part of another one that holds its items. -/
theorem closure_subset (h : ∀ it ∈ items, it ∈ closure g items') : ∀ it ∈ closure g items, it ∈ closure g items' :=
  closure_induction h fun _ hit _ hx => mem_closure_of_mem_expansion hit hx

/-- Which items are given decides, not their order or how often they are given. -/
theorem closure_congr (h : ∀ it, it ∈ items' ↔ it ∈ items) : closure g items' = closure g items :=
  SortedSet.ext_mem fun it =>
    ⟨closure_subset (fun _ hit => mem_closure_of_mem ((h _).mp hit)) it,
      closure_subset (fun _ hit => mem_closure_of_mem ((h _).mpr hit)) it⟩

/-- The closure of a closure is that closure. -/
theorem closure_closure : closure g (closure g items).toList = closure g items :=
  SortedSet.ext_mem fun it => ⟨closure_subset (fun _ hit => hit) it, fun hit => mem_closure_of_mem hit⟩

/-- A set is what the work list makes of the items: the least closed set that holds them, which more items only make
larger, and which is the same in whatever order the items are given. -/
structure ClosesTo (g : Grammar α) (items : List Item) (s : ItemSet) : Prop where
  /-- The set is the answer, and that with which the stack of waiting items runs empty. -/
  computed : closure? g items = some s ∧ ClosureEndsAt g items s
  /-- The set is the least closed one that holds the items. -/
  isLeastClosed : g.IsLeastClosed items s
  /-- The answer for the set is the set. -/
  idempotent : closure? g s.toList = some s
  /-- The answer for more items is a set with more items. -/
  monotone : ∀ items', (∀ it ∈ items', it.IsPlaced g) → (∀ it ∈ items, it ∈ items') →
    ∃ s', closure? g items' = some s' ∧ ∀ it ∈ s, it ∈ s'
  /-- The answer for the same items in another order, or given more or less often, is the set. -/
  congr : ∀ items', (∀ it, it ∈ items' ↔ it ∈ items) → closure? g items' = some s

/-- **Placed items close to a set.** -/
theorem exists_closesTo (g : Grammar α) (items : List Item) (h : ∀ it ∈ items, it.IsPlaced g) :
    ∃ s, ClosesTo g items s :=
  ⟨closure g items, {
    computed := ⟨closure?_of_isPlaced h, closureEndsAt_closure items⟩
    isLeastClosed := isLeastClosed_closure h
    idempotent := by rw [closure?_of_isPlaced (isPlaced_of_mem_closure h), closure_closure]
    monotone := fun _ h' hsub =>
      ⟨_, closure?_of_isPlaced h', closure_subset fun _ hit => mem_closure_of_mem (hsub _ hit)⟩
    congr := fun items' hiff => by
      rw [closure?_of_isPlaced fun it hit => h it ((hiff it).mp hit), closure_congr hiff] }⟩

namespace Brackets

/-- Within brackets another list may follow, or the closing bracket. -/
theorem exists_closesTo_items : ∃ s, ClosesTo grammar [⟨1, 1, endMark⟩] s ∧ s.toList =
    [⟨1, 0, .terminal opening⟩, ⟨1, 0, .terminal closing⟩, ⟨1, 1, endMark⟩, ⟨2, 0, .terminal closing⟩,
      ⟨3, 0, .terminal closing⟩] := by
  obtain ⟨s, hs⟩ := exists_closesTo grammar [⟨1, 1, endMark⟩] fun it hit => by
    rw [List.mem_singleton.mp hit]
    exact ⟨by decide, by decide, by decide, endMark, rfl⟩
  have hvalue : closure? grammar [⟨1, 1, endMark⟩] = some (.ofList
      [⟨1, 0, .terminal opening⟩, ⟨1, 0, .terminal closing⟩, ⟨1, 1, endMark⟩, ⟨2, 0, .terminal closing⟩,
        ⟨3, 0, .terminal closing⟩]) := by
    decide +kernel
  obtain rfl := Option.some.inj (hs.computed.1.symm.trans hvalue)
  exact ⟨_, hs, by decide +kernel⟩

end Brackets

end CanonicalLR
