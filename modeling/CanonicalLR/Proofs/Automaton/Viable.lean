import CanonicalLR.Proofs.Automaton.Call

/-!
# States are the sets of valid items

A text is a viable prefix if a rightmost derivation from the augmented start reaches a text that has it up to some place
of the body that was put in last. The item of that body, with the dot at that place and the terminal that comes next
after the body, is valid for the prefix.

`Context` says by recursion on the productions where a non-terminal stands last in a rightmost derivation
(`context_iff_reachesLast`). With it, valid items are in the set that goto leads to (`mem_itemsAfter_of_isValidItem`).
Conversely all items there are valid if every non-terminal derives something (`isValidItem_of_mem_itemsAfter`). So the
transitions lead over the viable prefixes, and to the sets of their valid items (`follow?_isSome_iff_isViablePrefix`).
-/

namespace CanonicalLR

variable {α : Type}

/-! ## Texts of terminals -/

theorem nonterminal_not_mem_terminals {n : NonTerminal} {w : List Terminal} {as bs : List Symbol} :
    w.map Symbol.terminal ≠ as ++ .nonterminal n :: bs := by
  intro h
  have hm : Symbol.nonterminal n ∈ w.map Symbol.terminal := h ▸ List.mem_append_right _ List.mem_cons_self
  obtain ⟨t, _, ht⟩ := List.mem_map.mp hm
  cases ht

namespace Grammar

/-- A rightmost derivation from the augmented start reaches the text with `n` between `δ` and `w`. -/
def ReachesLast (g : Grammar α) (δ : List Symbol) (n : NonTerminal) (w : List Terminal) : Prop :=
  g.RightDerives [.nonterminal augmentedStart] (δ ++ .nonterminal n :: w.map Symbol.terminal)

/-- A rightmost derivation puts a body `a ++ b` in last, with `δ ++ a` being the given text. -/
def IsViablePrefix (g : Grammar α) (γ : List Symbol) : Prop :=
  ∃ p ∈ g.productions, ∃ δ a b w, g.ReachesLast δ p.head w ∧ p.body = a ++ b ∧ γ = δ ++ a

/-- The item of such a body with the dot between `a` and `b`, and with the terminal that comes next after the body. -/
def IsValidItem (g : Grammar α) (γ : List Symbol) (it : Item) : Prop :=
  ∃ p ∈ g.productions, ∃ δ a b w, g.ReachesLast δ p.head w ∧ p.body = a ++ b ∧ γ = δ ++ a ∧
    it = p.item a.length (w.headD endMark)

/-- The texts before and behind the last non-terminal in rightmost derivations, by recursion on the productions. -/
inductive Context (g : Grammar α) : List Symbol → NonTerminal → List Terminal → Prop
  | root : Context g [] augmentedStart []
  | child {p : Production α} {n : NonTerminal} {δ a b : List Symbol} {v w : List Terminal} : p ∈ g.productions →
      Context g δ p.head w → p.body = a ++ .nonterminal n :: b → g.Yields b v → Context g (δ ++ a) n (v ++ w)

variable {g : Grammar α}

/-! ## Contexts -/

theorem ReachesLast.child {p : Production α} {n : NonTerminal} {δ a b : List Symbol} {v w : List Terminal}
    (hp : p ∈ g.productions) (h : g.ReachesLast δ p.head w) (hb : p.body = a ++ .nonterminal n :: b)
    (hv : g.Yields b v) : g.ReachesLast (δ ++ a) n (v ++ w) := by
  have h₁ : g.RightDerives [.nonterminal augmentedStart] (δ ++ p.body ++ w.map Symbol.terminal) :=
    h.tail ⟨p, hp, δ, w, rfl, rfl⟩
  have h₂ := hv.rightDerives.context (δ ++ a ++ [.nonterminal n]) w
  rw [hb] at h₁
  simp only [List.append_assoc, List.cons_append, List.nil_append] at h₁ h₂
  unfold ReachesLast
  rw [List.map_append, List.append_assoc]
  exact h₁.trans h₂

theorem Context.reachesLast {δ : List Symbol} {n : NonTerminal} {w : List Terminal} (h : g.Context δ n w) :
    g.ReachesLast δ n w := by
  induction h with
  | root => exact .refl
  | child hp _ hb hv ih => exact ih.child hp hb hv

/-- Where what follows a non-terminal yields `w`, the non-terminal stands last before `w`. -/
theorem context_of_rightDerives {u : List Symbol} (h : g.RightDerives [.nonterminal augmentedStart] u) :
    ∀ {δ ys : List Symbol} {n : NonTerminal} {w : List Terminal}, u = δ ++ .nonterminal n :: ys → g.Yields ys w →
      g.Context δ n w := by
  induction h with
  | refl =>
    intro δ ys n w hu hw
    rcases List.append_eq_singleton_iff.mp hu.symm with ⟨rfl, he⟩ | ⟨_, he⟩
    · obtain ⟨hn, rfl⟩ := List.cons.inj he
      obtain rfl := Symbol.nonterminal.inj hn
      cases hw
      exact .root
    · cases he
  | tail _ hs ih =>
    obtain ⟨p, hp, x, z, rfl, rfl⟩ := hs
    intro δ ys n w hu hw
    rw [List.append_assoc] at hu
    rcases append_eq_append_cons hu with ⟨c, rfl, rfl⟩ | ⟨a, rfl, ha⟩
    · -- the non-terminal stood there before the step
      have hy : g.Yields (c ++ .nonterminal p.head :: z.map Symbol.terminal) w :=
        hw.of_produces ⟨p, hp, c, z.map Symbol.terminal, rfl, by simp⟩
      exact ih (by simp) hy
    · rcases append_eq_append_cons ha with ⟨b, hb, rfl⟩ | ⟨c, rfl, hz⟩
      · -- the step put it in
        obtain ⟨v, z', rfl, hv, hz'⟩ := hw.split
        obtain rfl := eq_of_yields_terminals hz'
        exact .child hp (ih rfl (yields_terminals z')) hb hv
      · exact absurd hz nonterminal_not_mem_terminals

/-- **Contexts are what rightmost derivations reach.** -/
theorem context_iff_reachesLast {δ : List Symbol} {n : NonTerminal} {w : List Terminal} :
    g.Context δ n w ↔ g.ReachesLast δ n w :=
  ⟨Context.reachesLast, fun h => context_of_rightDerives h rfl (yields_terminals w)⟩

/-! ## Valid items are found -/

/-- What stands last in a rightmost derivation is called for, with the terminal that comes next. -/
theorem Context.callsFor {δ : List Symbol} {n : NonTerminal} {w : List Terminal} (h : g.Context δ n w) :
    g.CallsFor δ n (w.headD endMark) := by
  induction h with
  | root => exact .start
  | child hp _ hb hv ih => exact .child hp ih hb (mayFollow_of_yields hv)

/-- **Every valid item is in the set that goto leads to.** -/
theorem mem_itemsAfter_of_isValidItem {γ : List Symbol} {it : Item} (h : g.IsValidItem γ it) :
    it ∈ itemsAfter g γ := by
  obtain ⟨p, hp, δ, a, b, w, hr, hb, rfl, rfl⟩ := h
  have hc := (context_iff_reachesLast.mpr hr).callsFor
  exact mem_itemsAfter_iff_isCalled.mpr ⟨p, hp, δ, a, b, _, hc, hb, rfl, rfl⟩

/-! ## What is found is valid -/

/-- Where every non-terminal derives something, a terminal that may follow does follow in some derivation. -/
theorem exists_yields_of_mayFollow (hu : g.underivable = []) {rest : List Symbol}
    (hrest : ∀ s ∈ rest, Defined g.vocabulary g.rulebook s) {w : List Terminal} {t : Terminal}
    (h : g.MayFollow rest (w.headD endMark) t) : ∃ v, g.Yields rest v ∧ (v ++ w).headD endMark = t := by
  rcases h with ht | ⟨he, rfl⟩
  · obtain ⟨v, hv⟩ := exists_yields_cons hu hrest ht
    exact ⟨t :: v, hv, rfl⟩
  · exact ⟨[], he, rfl⟩

/-- Where every non-terminal derives something, what is called for stands last in a rightmost derivation. -/
theorem CallsFor.exists_reachesLast (hu : g.underivable = []) {δ : List Symbol} {n : NonTerminal} {t : Terminal}
    (h : g.CallsFor δ n t) : ∃ w, g.ReachesLast δ n w ∧ w.headD endMark = t := by
  induction h with
  | start => exact ⟨[], .refl, rfl⟩
  | child hp _ hb ht ih =>
    obtain ⟨w, hr, rfl⟩ := ih
    have hdef := List.forall_mem_of_forall_mem_cons (defined_of_body_eq_append hp hb)
    obtain ⟨v, hv, hvt⟩ := exists_yields_of_mayFollow hu hdef ht
    exact ⟨v ++ w, hr.child hp hb hv, hvt⟩

/-- Where every non-terminal derives something, the production of an item stands last in a rightmost derivation, before
the lookahead of the item. -/
theorem exists_reachesLast_of_item_mem (hu : g.underivable = []) {p : Production α} (hp : p ∈ g.productions)
    {γ a b : List Symbol} (hb : p.body = a ++ b) {t : Terminal} (h : p.item a.length t ∈ itemsAfter g γ) :
    ∃ δ w, γ = δ ++ a ∧ g.ReachesLast δ p.head w ∧ w.headD endMark = t := by
  obtain ⟨δ, hγ, hc⟩ := exists_callsFor_of_item_mem hp hb h
  obtain ⟨w, hr, hw⟩ := hc.exists_reachesLast hu
  exact ⟨δ, w, hγ, hr, hw⟩

/-- **Every item in the set that goto leads to is valid.** -/
theorem isValidItem_of_mem_itemsAfter (hu : g.underivable = []) {γ : List Symbol} :
    ∀ it ∈ itemsAfter g γ, g.IsValidItem γ it := by
  intro it hit
  obtain ⟨p, hp, δ, a, b, t, hc, hb, rfl, rfl⟩ := mem_itemsAfter_iff_isCalled.mp hit
  obtain ⟨w, hr, rfl⟩ := hc.exists_reachesLast hu
  exact ⟨p, hp, δ, a, b, w, hr, hb, rfl, rfl⟩

theorem mem_itemsAfter_iff (hu : g.underivable = []) {γ : List Symbol} {it : Item} :
    it ∈ itemsAfter g γ ↔ g.IsValidItem γ it :=
  ⟨isValidItem_of_mem_itemsAfter hu it, mem_itemsAfter_of_isValidItem⟩

theorem isViablePrefix_iff {γ : List Symbol} : g.IsViablePrefix γ ↔ ∃ it, g.IsValidItem γ it := by
  constructor
  · rintro ⟨p, hp, δ, a, b, w, hr, hb, hγ⟩
    exact ⟨_, p, hp, δ, a, b, w, hr, hb, hγ, rfl⟩
  · rintro ⟨_, p, hp, δ, a, b, w, hr, hb, hγ, -⟩
    exact ⟨p, hp, δ, a, b, w, hr, hb, hγ⟩

/-! ## Following viable prefixes -/

theorem follow?_zero_eq_some_iff {γ : List Symbol} {j : Int} :
    (canonicalAutomaton g).follow? 0 γ = some j ↔ (∃ it, it ∈ itemsAfter g γ) ∧ ∃ m : Nat, j = m ∧
      (canonicalAutomaton g).states[m]? = some (itemsAfter g γ) :=
  follow?_eq_some_iff getElem?_states_zero ⟨initialItem, mem_closure_of_mem List.mem_cons_self⟩

/-- Where goto leads to some item, transitions lead to the state of all items there. -/
theorem exists_follow?_zero {γ : List Symbol} {it : Item} (h : it ∈ itemsAfter g γ) :
    ∃ m : Nat, (canonicalAutomaton g).follow? 0 γ = some (m : Int) ∧
      (canonicalAutomaton g).states[m]? = some (itemsAfter g γ) := by
  obtain ⟨m, hm⟩ := exists_state_of_mem_itemsAfter h
  exact ⟨m, follow?_zero_eq_some_iff.mpr ⟨⟨it, h⟩, m, rfl, hm⟩, hm⟩

/-- **The transitions lead over exactly the viable prefixes, and to the sets of their valid items.** -/
theorem follow?_isSome_iff_isViablePrefix (hu : g.underivable = []) (γ : List Symbol) :
    (((canonicalAutomaton g).follow? 0 γ).isSome ↔ g.IsViablePrefix γ) ∧
      ∀ j, (canonicalAutomaton g).follow? 0 γ = some j → ∃ (n : Nat) (s : ItemSet),
        j = n ∧ (canonicalAutomaton g).states[n]? = some s ∧ ∀ it, it ∈ s ↔ g.IsValidItem γ it := by
  refine ⟨?_, fun j hj => ?_⟩
  · rw [isViablePrefix_iff, Option.isSome_iff_exists]
    constructor
    · rintro ⟨j, hj⟩
      obtain ⟨⟨it, hit⟩, -⟩ := follow?_zero_eq_some_iff.mp hj
      exact ⟨it, (mem_itemsAfter_iff hu).mp hit⟩
    · rintro ⟨it, hit⟩
      obtain ⟨m, hm, -⟩ := exists_follow?_zero (mem_itemsAfter_of_isValidItem hit)
      exact ⟨m, hm⟩
  · obtain ⟨-, n, rfl, hn⟩ := follow?_zero_eq_some_iff.mp hj
    exact ⟨n, _, rfl, hn, fun it => mem_itemsAfter_iff hu⟩

set_option maxRecDepth 20000 in
/-- Lists may follow each other within brackets, and nowhere else. -/
theorem isViablePrefix_brackets :
    Brackets.grammar.IsViablePrefix [Brackets.opening, Brackets.list, Brackets.list] ∧
      ¬Brackets.grammar.IsViablePrefix [Brackets.list, Brackets.list] := by
  have hu : Brackets.grammar.underivable = [] := by decide
  constructor
  · exact (follow?_isSome_iff_isViablePrefix hu _).1.mp (by decide +kernel)
  · intro h
    have hsome := (follow?_isSome_iff_isViablePrefix hu _).1.mpr h
    revert hsome
    decide +kernel

end Grammar

end CanonicalLR
