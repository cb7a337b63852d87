import CanonicalLR.Proofs.Automaton.Collection
import CanonicalLR.Proofs.Grammar.Translation

/-!
# Item sets of grammars that correspond

A translation takes the items of a grammar to items, with the translated production number and lookahead and the dot
where it was. What is called for along a text is taken to what is called for along the translated text
(`Translation.Maps.callsFor`), so the items after a text are taken to items after the translated text. Where grammars
correspond these are all of them (`Translation.Corresponds.itemSet_itemsAfter`). So the states of one canonical
automaton are taken to the states of the other, and its gotos to gotos (`itemSet_mem_states`, `itemSet_goto`).
-/

namespace CanonicalLR

variable {α β : Type}

/-! ## Items -/

namespace Translation

section Definitions

variable (r : Translation)

/-- What a key is read as, if it is a symbol. -/
def key : Key → Key
  | .symbol s => .symbol (r.symbol s)
  | k => k

@[simp] theorem key_symbol (s : Symbol) : r.key (.symbol s) = .symbol (r.symbol s) := rfl

/-- What an item is read as. -/
def item (it : Item) : Item := ⟨r.number it.production, it.dot, r.key it.lookahead⟩

/-- What an item set is read as. -/
def itemSet (s : ItemSet) : ItemSet := .ofList (s.toList.map r.item)

end Definitions

variable {r r' : Translation}

theorem mem_itemSet_iff {s : ItemSet} {it' : Item} : it' ∈ r.itemSet s ↔ ∃ it ∈ s, r.item it = it' := by
  rw [itemSet, SortedSet.mem_ofList, List.mem_map]
  rfl

theorem item_item {p : Production α} {q : Production β} (hn : (q.number : Int) = r.number p.number) {k : Nat}
    {t : Terminal} : r.item (p.item k t) = q.item k (r.terminal t) := by
  rw [Production.item, Production.item, hn]
  rfl

end Translation

variable {g : Grammar α} {g' : Grammar β} {γ δ : List Symbol}

/-! ## What is used along a text -/

namespace Grammar

/-- Whatever may follow a text of used symbols is used, if the lookahead is. -/
theorem MayFollow.uses {b : List Symbol} {s t : Terminal} (h : g.MayFollow b s t) (hb : ∀ x ∈ b, g.Uses x)
    (hs : g.Uses (.terminal s)) : g.Uses (.terminal t) := by
  rcases h with ht | ⟨-, rfl⟩
  · exact uses_of_mem_firstOfText hb ht
  · exact hs

/-- What is called for is used, and so are the text along which it is called for and its lookahead. -/
theorem CallsFor.uses {n : NonTerminal} {t : Terminal} (h : g.CallsFor δ n t) :
    (∀ x ∈ δ, g.Uses x) ∧ g.Uses (.terminal t) := by
  induction h with
  | start => exact ⟨fun x hx => absurd hx List.not_mem_nil, uses_endMark⟩
  | @child p n δ a b s t hp _ hb ht ih =>
    have hbody : ∀ x ∈ a ++ .nonterminal n :: b, g.Uses x := fun x hx => uses_of_mem_body hp (hb ▸ hx)
    refine ⟨fun x hx => ?_, ht.uses (fun x hx => hbody x (by simp [hx])) ih.2⟩
    rcases List.mem_append.mp hx with hx | hx
    · exact ih.1 x hx
    · exact hbody x (by simp [hx])

end Grammar

/-- The text before an item is used, and so is its lookahead. -/
theorem exists_uses_of_item_mem {it : Item} (h : it ∈ itemsAfter g γ) : (∀ x ∈ γ, g.Uses x) ∧
    ∃ p ∈ g.productions, ∃ k t, it = p.item k t ∧ g.Uses (.terminal t) := by
  obtain ⟨p, hp, δ, a, b, t, hc, hb, rfl, rfl⟩ := mem_itemsAfter_iff_isCalled.mp h
  obtain ⟨hδ, ht⟩ := hc.uses
  refine ⟨fun x hx => ?_, p, hp, a.length, t, rfl, ht⟩
  rcases List.mem_append.mp hx with hx | hx
  · exact hδ x hx
  · exact Grammar.uses_of_mem_body hp (hb ▸ List.mem_append_left b hx)

namespace Translation

variable {r r' : Translation}

/-! ## What is called for -/

section Maps

variable (h : r.Maps g g')
include h

theorem Maps.mayFollow {b : List Symbol} {s t : Terminal} (hf : g.MayFollow b s t) :
    g'.MayFollow (b.map r.symbol) (r.terminal s) (r.terminal t) := by
  rcases hf with ht | ⟨hb, rfl⟩
  · exact .inl (h.mem_firstOfText ht)
  · exact .inr ⟨h.yields_nil hb, rfl⟩

/-- **What is called for is taken to what is called for along the translated text.** -/
theorem Maps.callsFor {n : NonTerminal} {t : Terminal} (hc : g.CallsFor δ n t) :
    g'.CallsFor (δ.map r.symbol) (r.nonterminal n) (r.terminal t) := by
  induction hc with
  | start =>
    rw [h.augmentedStart_eq, h.endMark_eq]
    exact .start
  | @child p n δ a b s t hp _ hb ht ih =>
    obtain ⟨q, hq, hhead, hbody, -⟩ := h.exists_head_body hp
    rw [← hhead] at ih
    rw [List.map_append]
    refine .child hq ih ?_ (h.mayFollow ht)
    rw [hbody, hb, List.map_append, List.map_cons, symbol_nonterminal]

/-- The items after a text are taken to items after the translated text. -/
theorem Maps.item_mem {it : Item} (hit : it ∈ itemsAfter g γ) : r.item it ∈ itemsAfter g' (γ.map r.symbol) := by
  obtain ⟨p, hp, δ, a, b, t, hc, hb, rfl, rfl⟩ := mem_itemsAfter_iff_isCalled.mp hit
  obtain ⟨q, hq, hhead, hbody, hn⟩ := h.exists_head_body hp
  have hc' := h.callsFor hc
  rw [← hhead] at hc'
  refine mem_itemsAfter_iff_isCalled.mpr ⟨q, hq, δ.map r.symbol, a.map r.symbol, b.map r.symbol, r.terminal t, hc', ?_,
    List.map_append, ?_⟩
  · rw [hbody, hb, List.map_append]
  · rw [item_item hn, List.length_map]

/-- The symbols after a dot are taken to symbols after a dot. -/
theorem Maps.mem_nextSymbols {x : Symbol} (hx : x ∈ (itemsAfter g γ).nextSymbols g) :
    r.symbol x ∈ (itemsAfter g' (γ.map r.symbol)).nextSymbols g' := by
  obtain ⟨it, hit⟩ := exists_mem_goto_iff.mpr hx
  rw [← itemsAfter_append_singleton] at hit
  have hit' := h.item_mem hit
  rw [List.map_append, List.map_singleton, itemsAfter_append_singleton] at hit'
  exact exists_mem_goto_iff.mp ⟨_, hit'⟩

/-- A production that can be completed is taken to one that can. -/
theorem Maps.exists_completion {p : Production α} (hp : p ∈ g.productions) {t : Terminal}
    (hit : p.item p.body.length t ∈ itemsAfter g γ) : ∃ q ∈ g'.productions, q.toRule = r.rule p.toRule ∧
      (q.number : Int) = r.number p.number ∧
      q.item q.body.length (r.terminal t) ∈ itemsAfter g' (γ.map r.symbol) := by
  obtain ⟨q, hq, he, hn⟩ := h.exists_production p hp
  refine ⟨q, hq, he, hn, ?_⟩
  have hlen : q.body.length = p.body.length := by
    rw [congrArg Rule.body he]
    exact List.length_map ..
  rw [hlen, ← item_item hn]
  exact h.item_mem hit

end Maps

/-! ## There and back -/

section Corresponds

variable (h : r.Corresponds r' g g')
include h

theorem Corresponds.item_back {it : Item} (hit : it ∈ itemsAfter g γ) : r'.item (r.item it) = it := by
  obtain ⟨-, p, hp, k, t, rfl, ht⟩ := exists_uses_of_item_mem hit
  rw [item, item, Item.mk.injEq]
  refine ⟨h.number_back hp, rfl, ?_⟩
  simp only [Production.item, key_symbol, symbol_terminal, h.terminal_back ht]

/-- **The items after a translated text are the translated items.** -/
theorem Corresponds.itemSet_itemsAfter (hγ : ∀ x ∈ γ, g.Uses x) :
    r.itemSet (itemsAfter g γ) = itemsAfter g' (γ.map r.symbol) := by
  refine SortedSet.ext_mem fun it' => ?_
  rw [mem_itemSet_iff]
  constructor
  · rintro ⟨it, hit, rfl⟩
    exact h.maps.item_mem hit
  · intro hit'
    have hit := h.back.item_mem hit'
    rw [h.text_back hγ] at hit
    exact ⟨_, hit, h.symm.item_back hit'⟩

/-- The symbols after a dot in a translated text are the translated symbols. -/
theorem Corresponds.mem_nextSymbols_itemsAfter (hγ : ∀ x ∈ γ, g.Uses x) {y : Symbol} :
    y ∈ (itemsAfter g' (γ.map r.symbol)).nextSymbols g' ↔ ∃ x ∈ (itemsAfter g γ).nextSymbols g, r.symbol x = y := by
  constructor
  · intro hy
    have hx := h.back.mem_nextSymbols hy
    rw [h.text_back hγ] at hx
    obtain ⟨q, hq, δ, a, b, t, _, hb, _⟩ := exists_callsFor_of_mem_nextSymbols hy
    exact ⟨_, hx, h.symbol_forth y (Grammar.uses_of_mem_body hq (hb ▸ List.mem_append_right a List.mem_cons_self))⟩
  · rintro ⟨x, hx, rfl⟩
    exact h.maps.mem_nextSymbols hx

/-! ## States -/

section States

variable {s : ItemSet} (hs : s ∈ (canonicalAutomaton g).states)
include hs

/-- A state is the set after some text of used symbols, and it is taken to the set after the translated text. -/
theorem Corresponds.exists_itemsAfter : ∃ γ, s = itemsAfter g γ ∧ (∀ x ∈ γ, g.Uses x) ∧
    r.itemSet s = itemsAfter g' (γ.map r.symbol) := by
  obtain ⟨γ, rfl⟩ := exists_itemsAfter_eq hs
  obtain ⟨it, hit⟩ := exists_item_of_mem_canonical _ hs
  have hγ := (exists_uses_of_item_mem hit).1
  exact ⟨γ, rfl, hγ, h.itemSet_itemsAfter hγ⟩

/-- States are taken to states. -/
theorem Corresponds.itemSet_mem_states : r.itemSet s ∈ (canonicalAutomaton g').states := by
  obtain ⟨it, hit⟩ := exists_item_of_mem_canonical _ hs
  obtain ⟨γ, rfl, -, he⟩ := h.exists_itemsAfter hs
  have hit' := h.maps.item_mem hit
  rw [he]
  exact itemsAfter_mem_states hit'

/-- Nothing of a state is lost. -/
theorem Corresponds.itemSet_back : r'.itemSet (r.itemSet s) = s := by
  obtain ⟨γ, rfl, hγ, he⟩ := h.exists_itemsAfter hs
  have hγ' : ∀ x ∈ γ.map r.symbol, g'.Uses x := by
    intro x hx
    obtain ⟨y, hy, rfl⟩ := List.mem_map.mp hx
    exact h.uses (hγ y hy)
  rw [he, h.symm.itemSet_itemsAfter hγ', h.text_back hγ]

theorem Corresponds.mem_nextSymbols_iff {y : Symbol} :
    y ∈ (r.itemSet s).nextSymbols g' ↔ ∃ x ∈ s.nextSymbols g, r.symbol x = y := by
  obtain ⟨γ, rfl, hγ, he⟩ := h.exists_itemsAfter hs
  rw [he]
  exact h.mem_nextSymbols_itemsAfter hγ

/-- **Gotos are taken to gotos.** -/
theorem Corresponds.itemSet_goto {x : Symbol} (hx : x ∈ s.nextSymbols g) :
    r.itemSet (goto g s.toList x) = goto g' (r.itemSet s).toList (r.symbol x) := by
  obtain ⟨γ, rfl, hγ, he⟩ := h.exists_itemsAfter hs
  obtain ⟨q, hq, _, a, _, _, _, hb, _⟩ := exists_callsFor_of_mem_nextSymbols hx
  have hγx : ∀ y ∈ γ ++ [x], g.Uses y := by
    intro y hy
    rcases List.mem_append.mp hy with hy | hy
    · exact hγ y hy
    · rw [List.mem_singleton.mp hy]
      exact Grammar.uses_of_mem_body hq (hb ▸ List.mem_append_right a List.mem_cons_self)
  rw [he, ← itemsAfter_append_singleton, h.itemSet_itemsAfter hγx, List.map_append, List.map_singleton,
    itemsAfter_append_singleton]

end States

/-- States that are taken to one state are the same. -/
theorem Corresponds.itemSet_inj {s t : ItemSet} (hs : s ∈ (canonicalAutomaton g).states)
    (ht : t ∈ (canonicalAutomaton g).states) (he : r.itemSet s = r.itemSet t) : s = t := by
  rw [← h.itemSet_back hs, he, h.itemSet_back ht]

end Corresponds

end Translation

end CanonicalLR
