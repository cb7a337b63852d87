import CanonicalLR.Proofs.Automaton.Canonical
import CanonicalLR.Proofs.Grammar.Reachability

/-!
# What is called for along a text

After a text a non-terminal is called for with a lookahead if a production with the lookahead that it was called for
with itself has the non-terminal in its body, where the text ends, and the rest of the body lets the terminal follow
(`Grammar.CallsFor`, by recursion on the productions from the augmented start).

The items after a text are exactly those of productions that were called for where the part before their dot begins,
with the lookahead of the call (`mem_itemsAfter_iff_isCalled`). No derivation of terminals takes part in this, so it
holds also where some non-terminals derive nothing.
-/

namespace CanonicalLR

variable {α : Type}

namespace Grammar

/-- After the text, the productions of the non-terminal are called for with the lookahead. -/
inductive CallsFor (g : Grammar α) : List Symbol → NonTerminal → Terminal → Prop
  | start : CallsFor g [] augmentedStart endMark
  | child {p : Production α} {n : NonTerminal} {δ a b : List Symbol} {s t : Terminal} : p ∈ g.productions →
      CallsFor g δ p.head s → p.body = a ++ .nonterminal n :: b → g.MayFollow b s t → CallsFor g (δ ++ a) n t

/-- The production of an item was called for with its lookahead, and what stands before its dot was passed since. -/
def IsCalled (g : Grammar α) (γ : List Symbol) (it : Item) : Prop :=
  ∃ p ∈ g.productions, ∃ δ a b t, g.CallsFor δ p.head t ∧ p.body = a ++ b ∧ γ = δ ++ a ∧ it = p.item a.length t

end Grammar

open Grammar

variable {g : Grammar α} {γ δ : List Symbol} {n : NonTerminal} {p : Production α} {t : Terminal}

/-! ## Items along a text -/

/-- An item moves along its body as goto follows the body. -/
theorem item_mem_itemsAfter_append (hp : p ∈ g.productions) {c : List Symbol} :
    ∀ {a b γ : List Symbol}, p.body = a ++ c ++ b → p.item a.length t ∈ itemsAfter g γ →
      p.item (a ++ c).length t ∈ itemsAfter g (γ ++ c) := by
  induction c with
  | nil =>
    intro a b γ _ h
    simpa using h
  | cons x c ih =>
    intro a b γ hb h
    have hm : p.item (a ++ [x]).length t ∈ itemsAfter g (γ ++ [x]) := by
      rw [itemsAfter_append_singleton, ← advance_item_length]
      exact advance_mem_goto h (next_item_of_body hp (hb.trans (List.append_assoc ..)))
    have hc := ih (a := a ++ [x]) (by simpa using hb) hm
    simpa using hc

/-- An item with the dot in front moves over the first part of its body. -/
theorem item_mem_itemsAfter_of_body (hp : p ∈ g.productions) {a b : List Symbol} (hb : p.body = a ++ b)
    (h : p.item 0 t ∈ itemsAfter g δ) : p.item a.length t ∈ itemsAfter g (δ ++ a) :=
  item_mem_itemsAfter_append (a := []) hp hb h

/-- An item with the dot in front moves over its whole body. -/
theorem item_length_mem_itemsAfter (hp : p ∈ g.productions) (h : p.item 0 t ∈ itemsAfter g δ) :
    p.item p.body.length t ∈ itemsAfter g (δ ++ p.body) :=
  item_mem_itemsAfter_of_body hp (List.append_nil _).symm h

theorem itemsAfter_closed {it it' : Item} (h : it ∈ itemsAfter g γ) (h' : it' ∈ it.expansion g) :
    it' ∈ itemsAfter g γ := by
  rcases List.eq_nil_or_concat γ with rfl | ⟨γ, x, rfl⟩
  · exact mem_closure_of_mem_expansion h h'
  · rw [List.concat_eq_append, itemsAfter_append_singleton] at h ⊢
    exact mem_closure_of_mem_expansion h h'

/-- An item before a non-terminal calls for its productions with the terminals that may follow. -/
theorem item_mem_itemsAfter_of_follow {q : Production α} (hp : p ∈ g.productions) (hq : q ∈ g.productions)
    {a b : List Symbol} (hb : p.body = a ++ .nonterminal q.head :: b) {s : Terminal}
    (h : p.item a.length s ∈ itemsAfter g γ) (ht : g.MayFollow b s t) : q.item 0 t ∈ itemsAfter g γ := by
  refine itemsAfter_closed h ((mem_expansion_item_iff hp).mpr ⟨q, hq, ?_, t, ?_, rfl⟩)
  · rw [hb]
    simp
  · have hd : p.body.drop (a.length + 1) = b := by
      rw [hb]
      simp
    rw [hd]
    exact ht

/-! ## Items of what is called for -/

/-- What is called for is there. -/
theorem Grammar.CallsFor.item_mem (h : g.CallsFor δ n t) :
    ∀ p ∈ g.productions, p.head = n → p.item 0 t ∈ itemsAfter g δ := by
  induction h with
  | start =>
    intro p hp hn
    rw [(head_eq_augmentedStart_iff hp).mp hn]
    exact mem_closure_of_mem List.mem_cons_self
  | child hq _ hb ht ih =>
    rintro p hp rfl
    exact item_mem_itemsAfter_of_follow hq hp hb (item_mem_itemsAfter_of_body hq hb (ih _ hq rfl)) ht

theorem isCalled_initialItem : g.IsCalled [] initialItem :=
  ⟨g.augmented, augmented_mem, [], [], [.nonterminal g.start], endMark, .start, rfl, rfl, initialItem_eq⟩

theorem Grammar.IsCalled.advance {it : Item} (h : g.IsCalled γ it) {x : Symbol} (hx : it.next g = some x) :
    g.IsCalled (γ ++ [x]) it.advance := by
  obtain ⟨p, hp, δ, a, b, t, hc, hb, rfl, rfl⟩ := h
  rw [next_item_length hp hb] at hx
  obtain ⟨b, rfl⟩ := List.head?_eq_some_iff.mp hx
  exact ⟨p, hp, δ, a ++ [x], b, t, hc, by simp [hb], by simp, advance_item_length⟩

theorem Grammar.IsCalled.expansion {it it' : Item} (h : g.IsCalled γ it) (h' : it' ∈ it.expansion g) :
    g.IsCalled γ it' := by
  obtain ⟨p, hp, δ, a, b, s, hc, hb, rfl, rfl⟩ := h
  obtain ⟨q, hq, hn, t, ht, rfl⟩ := (mem_expansion_item_iff hp).mp h'
  rw [← next_item (t := s) hp, next_item_length hp hb] at hn
  obtain ⟨b, rfl⟩ := List.head?_eq_some_iff.mp hn
  have hd : p.body.drop (a.length + 1) = b := by
    rw [hb]
    simp
  rw [hd] at ht
  exact ⟨q, hq, δ ++ a, [], q.body, t, .child hp hc hb ht, rfl, by simp, rfl⟩

/-- **The items after a text are those that are called for along it.** -/
theorem mem_itemsAfter_iff_isCalled {it : Item} : it ∈ itemsAfter g γ ↔ g.IsCalled γ it := by
  constructor
  · induction γ using List.reverseRecOn generalizing it with
    | nil =>
      refine closure_induction (fun it hit => ?_) (fun _ h _ h' => h.expansion h') it
      rw [List.mem_singleton.mp hit]
      exact isCalled_initialItem
    | append_singleton γ x ih =>
      rw [itemsAfter_append_singleton]
      exact goto_induction (fun _ hit hx => (ih hit).advance hx) (fun _ h _ h' => h.expansion h') it
  · rintro ⟨p, hp, δ, a, b, t, hc, hb, rfl, rfl⟩
    exact item_mem_itemsAfter_of_body hp hb (hc.item_mem p hp rfl)

/-- A symbol that stands after a dot is in the body of a production that was called for. -/
theorem exists_callsFor_of_mem_nextSymbols {x : Symbol} (h : x ∈ (itemsAfter g γ).nextSymbols g) :
    ∃ p ∈ g.productions, ∃ δ a b t, g.CallsFor δ p.head t ∧ p.body = a ++ x :: b ∧ γ = δ ++ a ∧
      p.item a.length t ∈ itemsAfter g γ := by
  obtain ⟨it, hit, hnext⟩ := mem_nextSymbols_iff.mp h
  obtain ⟨p, hp, δ, a, b, t, hc, hb, hγ, rfl⟩ := mem_itemsAfter_iff_isCalled.mp hit
  rw [next_item_length hp hb] at hnext
  obtain ⟨b, rfl⟩ := List.head?_eq_some_iff.mp hnext
  exact ⟨p, hp, δ, a, b, t, hc, hb, hγ, hit⟩

/-- What is called for, apart from the augmented start, stands after a dot. -/
theorem Grammar.CallsFor.mem_nextSymbols (h : g.CallsFor δ n t) (hn : n ≠ augmentedStart) :
    .nonterminal n ∈ (itemsAfter g δ).nextSymbols g := by
  cases h with
  | start => exact absurd rfl hn
  | child hp hc hb _ =>
    exact mem_nextSymbols_of_item_mem hp hb (item_mem_itemsAfter_of_body hp hb (hc.item_mem _ hp rfl))

/-- What is called for, apart from the augmented start, is reachable. -/
theorem Grammar.CallsFor.eq_or_isReachable (h : g.CallsFor δ n t) : n = augmentedStart ∨ g.IsReachable n := by
  induction h with
  | start => exact .inl rfl
  | child hp _ hb _ ih =>
    refine .inr (isReachable_of_mem_body hp ih ?_)
    rw [hb]
    exact List.mem_append_right _ List.mem_cons_self

theorem Grammar.CallsFor.notMem_unreachable (h : g.CallsFor δ n t) : n ∉ g.unreachable := by
  rcases h.eq_or_isReachable with rfl | hn
  · exact augmentedStart_notMem_unreachable
  · exact fun hu => (mem_unreachable_iff.mp hu).2 hn

/-- The augmented start is called for at the beginning only, with the end marker. -/
theorem Grammar.CallsFor.eq_of_augmentedStart (h : g.CallsFor δ augmentedStart t) : δ = [] ∧ t = endMark := by
  cases h with
  | start => exact ⟨rfl, rfl⟩
  | child hp _ hb _ =>
    exact absurd (hb ▸ List.mem_append_right _ List.mem_cons_self) (augmentedStart_notMem_body hp)

/-- The augmented start is in no text along which something is called for. -/
theorem Grammar.CallsFor.augmentedStart_notMem (h : g.CallsFor δ n t) : .nonterminal augmentedStart ∉ δ := by
  induction h with
  | start => exact List.not_mem_nil
  | @child p n δ a b s t hp _ hb _ ih =>
    intro hm
    rcases List.mem_append.mp hm with hm | hm
    · exact ih hm
    · exact augmentedStart_notMem_body hp (hb ▸ List.mem_append_left _ hm)

theorem augmentedStart_notMem_of_item_mem {it : Item} (h : it ∈ itemsAfter g γ) :
    .nonterminal augmentedStart ∉ γ := by
  obtain ⟨p, hp, δ, a, b, t, hc, hb, rfl, -⟩ := mem_itemsAfter_iff_isCalled.mp h
  intro hm
  rcases List.mem_append.mp hm with hm | hm
  · exact hc.augmentedStart_notMem hm
  · exact augmentedStart_notMem_body hp (hb ▸ List.mem_append_left _ hm)

/-- The production of an item was called for where the part of its body before the dot begins. -/
theorem exists_callsFor_of_item_mem (hp : p ∈ g.productions) {a b : List Symbol} (hb : p.body = a ++ b)
    (h : p.item a.length t ∈ itemsAfter g γ) : ∃ δ, γ = δ ++ a ∧ g.CallsFor δ p.head t := by
  obtain ⟨q, hq, δ, a', b', u, hc, hb', rfl, he⟩ := mem_itemsAfter_iff_isCalled.mp h
  obtain ⟨rfl, hlen, rfl⟩ := item_inj hp hq he
  obtain ⟨rfl, -⟩ := List.append_inj (hb.symm.trans hb') hlen
  exact ⟨δ, rfl, hc⟩

/-- An item of the augmented production has the end marker for its lookahead, and what stands before its dot is all of
the text. -/
theorem item_augmented_mem_itemsAfter {k : Nat} (h : g.augmented.item k t ∈ itemsAfter g γ) :
    t = endMark ∧ γ = [.nonterminal g.start].take k := by
  obtain ⟨p, hp, δ, a, b, u, hc, hb, rfl, he⟩ := mem_itemsAfter_iff_isCalled.mp h
  obtain ⟨rfl, rfl, rfl⟩ := item_inj augmented_mem hp he
  obtain ⟨rfl, rfl⟩ := hc.eq_of_augmentedStart
  have hb' : [.nonterminal g.start] = a ++ b := hb
  refine ⟨rfl, ?_⟩
  rw [hb', List.take_left]
  rfl

/-- After the start symbol the augmented production is completed on the end marker. -/
theorem item_augmented_length_mem_itemsAfter :
    g.augmented.item g.augmented.body.length endMark ∈ itemsAfter g g.augmented.body := by
  have hcall : g.augmented.item 0 endMark ∈ itemsAfter g [] := CallsFor.start.item_mem _ augmented_mem rfl
  have hend : g.augmented.item g.augmented.body.length endMark ∈ itemsAfter g ([] ++ g.augmented.body) :=
    item_length_mem_itemsAfter augmented_mem hcall
  rwa [List.nil_append] at hend

end CanonicalLR
