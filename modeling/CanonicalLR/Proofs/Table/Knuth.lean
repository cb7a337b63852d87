import CanonicalLR.Proofs.Automaton.Viable
import CanonicalLR.Proofs.Table.Canonical

/-!
# A table without conflicts is an LR(1) grammar

A grammar is LR(1) if what stands up to the end of a handle in a rightmost derivation, and the terminal that comes next,
tell which handle it is (`Grammar.IsLR1`). Where every non-terminal derives something, the canonical table has no
conflicts just if the grammar is LR(1) (`conflicts_eq_nil_iff_isLR1`).

The items of the states stand between the two. Where they leave no choice, two handles with the same text up to their
ends complete the same production, and neither can end inside the other, because there a terminal would stand after a
dot as well (`IsDeterministic.isLR1`). Conversely two completions after one text are two handles of it, and so are a
completion and a shift, once what follows the shifted terminal has been derived to its last step (`eq_of_completions`,
`not_shift_of_completion`).
-/

namespace CanonicalLR.Grammar

variable {α : Type}

/-- Whenever `S' =>* a A w => a b w` and `S' =>* c B x => a b y` are rightmost and the same terminal comes next after
`a b`, the last steps are the same. -/
def IsLR1 (g : Grammar α) : Prop :=
  ∀ (a b c : List Symbol) (A B : NonTerminal) (w x y : List Terminal),
    g.RightDerives [.nonterminal augmentedStart] (a ++ .nonterminal A :: w.map Symbol.terminal) →
    g.RightProduces (a ++ .nonterminal A :: w.map Symbol.terminal) (a ++ b ++ w.map Symbol.terminal) →
    g.RightDerives [.nonterminal augmentedStart] (c ++ .nonterminal B :: x.map Symbol.terminal) →
    g.RightProduces (c ++ .nonterminal B :: x.map Symbol.terminal) (a ++ b ++ y.map Symbol.terminal) →
    w.headD endMark = y.headD endMark → a = c ∧ A = B ∧ x = y

variable {g : Grammar α}

/-! ## The last non-terminal of a text -/

/-- A text has one last non-terminal. -/
theorem last_nonterminal_unique {a b : List Symbol} {m n : NonTerminal} {w v : List Terminal}
    (h : a ++ .nonterminal m :: w.map Symbol.terminal = b ++ .nonterminal n :: v.map Symbol.terminal) :
    a = b ∧ m = n ∧ w = v := by
  rcases append_eq_append_cons h with ⟨c, rfl, hc⟩ | ⟨c, rfl, hc⟩
  · exact absurd hc nonterminal_not_mem_terminals
  · cases c with
    | cons x c => exact absurd (List.cons.inj hc).2 nonterminal_not_mem_terminals
    | nil =>
      obtain ⟨hn, hw⟩ := List.cons.inj hc
      refine ⟨(List.append_nil a).symm, Symbol.nonterminal.inj hn, ?_⟩
      exact List.map_injective_iff.mpr (fun _ _ => Symbol.terminal.inj) hw

/-- A text of terminals falls into texts of terminals. -/
theorem exists_of_map_terminal_eq {w v : List Terminal} {z : List Symbol}
    (h : w.map Symbol.terminal = z ++ v.map Symbol.terminal) :
    ∃ z', z = z'.map Symbol.terminal ∧ w = z' ++ v := by
  obtain ⟨z', v', rfl, rfl, hv⟩ := List.map_eq_append_iff.mp h
  obtain rfl := List.map_injective_iff.mpr (fun _ _ => Symbol.terminal.inj) hv
  exact ⟨z', rfl, rfl⟩

/-- A rightmost step at a given place puts in the body of a production there. -/
theorem rightProduces_iff {a v : List Symbol} {n : NonTerminal} {w : List Terminal} :
    g.RightProduces (a ++ .nonterminal n :: w.map Symbol.terminal) v ↔
      ∃ p ∈ g.productions, p.head = n ∧ v = a ++ p.body ++ w.map Symbol.terminal := by
  constructor
  · rintro ⟨p, hp, b, u, hu, rfl⟩
    obtain ⟨rfl, rfl, rfl⟩ := last_nonterminal_unique hu
    exact ⟨p, hp, rfl, rfl⟩
  · rintro ⟨p, hp, rfl, rfl⟩
    exact ⟨p, hp, a, w, rfl, rfl⟩

/-- A rightmost derivation has no steps, or else a last one. -/
theorem RightDerives.eq_or_last_step {u v : List Symbol} (h : g.RightDerives u v) :
    v = u ∨ ∃ r ∈ g.productions, ∃ (a : List Symbol) (w : List Terminal),
      g.RightDerives u (a ++ .nonterminal r.head :: w.map Symbol.terminal) ∧
      v = a ++ r.body ++ w.map Symbol.terminal := by
  rcases Relation.ReflTransGen.cases_tail h with rfl | ⟨_, h', r, hr, a, w, rfl, rfl⟩
  · exact .inl rfl
  · exact .inr ⟨r, hr, a, w, h', rfl⟩

/-- The condition in terms of the productions of the last steps. -/
theorem isLR1_iff : g.IsLR1 ↔ ∀ p ∈ g.productions, ∀ q ∈ g.productions, ∀ a c w x y,
    g.ReachesLast a p.head w → g.ReachesLast c q.head x →
    a ++ p.body ++ y.map Symbol.terminal = c ++ q.body ++ x.map Symbol.terminal →
    w.headD endMark = y.headD endMark → a = c ∧ p.head = q.head ∧ x = y := by
  constructor
  · intro h p hp q hq a c w x y hw hx he hl
    refine h a p.body c p.head q.head w x y hw (rightProduces_iff.mpr ⟨p, hp, rfl, rfl⟩) hx ?_ hl
    exact rightProduces_iff.mpr ⟨q, hq, rfl, he⟩
  · intro h a b c A B w x y hw hwp hx hxp hl
    obtain ⟨p, hp, rfl, hb⟩ := rightProduces_iff.mp hwp
    obtain rfl : b = p.body := by simpa using hb
    obtain ⟨q, hq, rfl, he⟩ := rightProduces_iff.mp hxp
    exact h p hp q hq a c w x y hw hx he hl

/-! ## From deterministic items -/

variable {γ : List Symbol} {t : Terminal}

/-- The item at the end of a handle, with the terminal that comes next. -/
theorem item_mem_itemsAfter_of_handle {p : Production α} (hp : p ∈ g.productions) {a : List Symbol} {w : List Terminal}
    (h : g.ReachesLast a p.head w) : p.item p.body.length (w.headD endMark) ∈ itemsAfter g (a ++ p.body) :=
  mem_itemsAfter_of_isValidItem ⟨p, hp, a, p.body, [], w, h, by simp, rfl, rfl⟩

/-- **A handle ends where a text with items ends, or the next terminal is shifted there.** -/
theorem IsDeterministic.handle_or_shift (hg : g.IsDeterministic) {it : Item} (hit : it ∈ itemsAfter g γ)
    {p : Production α} (hp : p ∈ g.productions) {a : List Symbol} {w v : List Terminal}
    (hw : g.ReachesLast a p.head w) (he : γ ++ v.map Symbol.terminal = a ++ p.body ++ w.map Symbol.terminal) :
    (γ = a ++ p.body ∧ v = w) ∨ ∃ t z, v = t :: z ∧ .terminal t ∈ (itemsAfter g γ).nextSymbols g := by
  have hpi := item_mem_itemsAfter_of_handle hp hw
  rcases List.append_eq_append_iff.mp he with ⟨z, hz, hvz⟩ | ⟨z, hz, hwz⟩
  · obtain ⟨z, rfl, rfl⟩ := exists_of_map_terminal_eq hvz
    cases z with
    | nil => exact .inl ⟨by simpa using hz.symm, rfl⟩
    | cons t z =>
      rw [hz] at hpi
      exact .inr ⟨t, z ++ w, rfl, mem_nextSymbols_of_mem_itemsAfter hpi⟩
  · obtain ⟨z, rfl, rfl⟩ := exists_of_map_terminal_eq hwz
    cases z with
    | nil => exact .inl ⟨by simpa using hz, rfl⟩
    | cons t z =>
      -- a handle that ends inside the text would leave a choice there
      rw [hz] at hit
      exact absurd (mem_nextSymbols_of_mem_itemsAfter hit) (hg.not_shift _ p hp t hpi)

/-- **A grammar with deterministic items is LR(1).** -/
theorem IsDeterministic.isLR1 (hg : g.IsDeterministic) : g.IsLR1 := by
  refine isLR1_iff.mpr fun p hp q hq a c w x y hw hx he hl => ?_
  have hpi := item_mem_itemsAfter_of_handle hp hw
  rw [hl] at hpi
  rcases hg.handle_or_shift hpi hq hx he with ⟨hac, rfl⟩ | ⟨t, z, rfl, ht⟩
  · have hqi := item_mem_itemsAfter_of_handle hq hx
    rw [← hac] at hqi
    obtain rfl := hg.completion_unique _ p hp q hq _ hpi hqi
    exact ⟨List.append_cancel_right hac, rfl, rfl⟩
  · exact absurd ht (hg.not_shift _ p hp t hpi)

/-! ## From an LR(1) grammar -/

section Determined

variable (hu : g.underivable = []) (hg : g.IsLR1)
include hu

/-- What can be completed is a handle of the text. -/
theorem exists_handle_of_mem {p : Production α} (hp : p ∈ g.productions)
    (h : p.item p.body.length t ∈ itemsAfter g γ) :
    ∃ a w, γ = a ++ p.body ∧ g.ReachesLast a p.head w ∧ w.headD endMark = t :=
  exists_reachesLast_of_item_mem hu hp (List.append_nil _).symm h

include hg

/-- Two productions that can be completed on one terminal are the same. -/
theorem eq_of_completions {p q : Production α} (hp : p ∈ g.productions) (hq : q ∈ g.productions)
    (hpi : p.item p.body.length t ∈ itemsAfter g γ) (hqi : q.item q.body.length t ∈ itemsAfter g γ) : p = q := by
  obtain ⟨a, w, rfl, hw, hwt⟩ := exists_handle_of_mem hu hp hpi
  obtain ⟨c, x, he, hx, hxt⟩ := exists_handle_of_mem hu hq hqi
  obtain ⟨rfl, hhead, -⟩ := isLR1_iff.mp hg p hp q hq a c w x x hw hx (by rw [he]) (hwt.trans hxt.symm)
  have hbody : p.body = q.body := List.append_cancel_left he
  apply eq_of_toRule_eq hp hq
  show Rule.mk p.head p.body = Rule.mk q.head q.body
  rw [hhead, hbody]

/-- Where a production can be completed on a terminal, the terminal is not shifted. -/
theorem not_shift_of_completion {p : Production α} (hp : p ∈ g.productions)
    (hpi : p.item p.body.length t ∈ itemsAfter g γ) : .terminal t ∉ (itemsAfter g γ).nextSymbols g := by
  intro hx
  obtain ⟨a, w, rfl, hw, rfl⟩ := exists_handle_of_mem hu hp hpi
  obtain ⟨q, hq, _, d, e, _, _, hb, _, hit⟩ := exists_callsFor_of_mem_nextSymbols hx
  obtain ⟨c, x, hγ, hr, -⟩ := exists_reachesLast_of_item_mem hu hq hb hit
  have hsteps : g.RightDerives [.nonterminal augmentedStart] (c ++ q.body ++ x.map Symbol.terminal) :=
    hr.tail ⟨q, hq, c, x, rfl, rfl⟩
  obtain ⟨v, hv⟩ := exists_yields_of_body_eq_append hu hq (hb.trans (List.append_cons d _ e))
  -- the last step that derives what stands behind the terminal, or else the step that put the terminal in
  rcases hv.rightDerives.eq_or_last_step with rfl | ⟨r, hr', b, v', hsteps', hlast⟩
  · have hlr := isLR1_iff.mp hg p hp q hq a c w x (w.headD endMark :: v ++ x) hw hr (by rw [hb, hγ]; simp) rfl
    have := congrArg List.length hlr.2.2
    simp only [List.length_append, List.length_cons] at this
    omega
  · have hbehind := hsteps'.context (c ++ d ++ [.terminal (w.headD endMark)]) x
    have hreach : g.ReachesLast (c ++ d ++ .terminal (w.headD endMark) :: b) r.head (v' ++ x) := by
      rw [hb] at hsteps
      simp only [List.append_assoc, List.cons_append, List.nil_append] at hsteps hbehind
      have h : g.RightDerives _ _ := hsteps.trans hbehind
      simpa [ReachesLast] using h
    have hlr := isLR1_iff.mp hg p hp r hr' a _ w (v' ++ x) (w.headD endMark :: v ++ x) hw hreach
      (by simp [hγ, hlast]) rfl
    have := congrArg List.length hlr.1
    rw [← hγ] at this
    simp only [List.length_append, List.length_cons] at this
    omega

end Determined

/-- **The canonical table has no conflicts just if the grammar is LR(1).** -/
theorem conflicts_eq_nil_iff_isLR1 (hu : g.underivable = []) :
    (canonicalAutomaton g).table.conflicts = [] ↔ g.IsLR1 := by
  rw [conflicts_eq_nil_iff_isDeterministic]
  constructor
  · exact IsDeterministic.isLR1
  · intro hg
    exact ⟨fun γ p hp q hq t => eq_of_completions hu hg hp hq, fun γ p hp t => not_shift_of_completion hu hg hp⟩

set_option maxRecDepth 20000 in
/-- Brackets tell which list they belong to, while signs do not tell which sum. -/
theorem isLR1_brackets_not_sums : Brackets.grammar.IsLR1 ∧ ¬Sums.grammar.IsLR1 := by
  have hb : Brackets.grammar.underivable = [] := by decide
  have hs : Sums.grammar.underivable = [] := by decide
  constructor
  · exact (conflicts_eq_nil_iff_isLR1 hb).mp (by decide +kernel)
  · intro h
    have hc := (conflicts_eq_nil_iff_isLR1 hs).mpr h
    revert hc
    decide +kernel

end CanonicalLR.Grammar
