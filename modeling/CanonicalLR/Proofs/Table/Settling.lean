import CanonicalLR.Proofs.Table.Canonical
import Mathlib.Data.List.Infix

/-!
# Reductions on one lookahead

The reductions on a lookahead act on the text along which a parser stands (`Grammar.ReducesTo`). The text settles if
there is no endless chain of them (`Grammar.Settles`).

In a deterministic grammar a text has at most one reduction on a lookahead, and none where the lookahead is shifted. A
production is completed on a lookahead that its call promised: either the rest of the calling body begins with it, and
what derives the empty text before it is reduced until it is shifted (`IsDeterministic.settles_of_mem_firstOfText`), or
the rest derives the empty text, is reduced to its end, and the calling production is completed on the same lookahead.
So an induction over the calls shows that every text settles (`IsDeterministic.settles`).

A promise is kept only if what is called for is looked for. A text that derives neither the empty text nor one with a
terminal in front is blocked: no terminal follows what stands before it, and nothing is called for there. The induction
needs that no blocked text stands behind a non-terminal that begins with a terminal (`Grammar.IsUnblocked`). This holds
in all grammars without underivable non-terminals (`isUnblocked_of_underivable`).
-/

namespace CanonicalLR.Grammar

variable {α : Type} {g : Grammar α}

/-! ## Blocked texts -/

/-- A text is blocked if it derives neither the empty text nor one with a terminal in front. -/
def IsBlocked (g : Grammar α) (ss : List Symbol) : Prop := g.derivesEmpty ss = false ∧ ∀ t, t ∉ g.firstOfText ss

/-- In no body of a reachable non-terminal does a blocked text stand behind a non-terminal that begins with a
terminal. -/
def IsUnblocked (g : Grammar α) : Prop :=
  ∀ p ∈ g.productions, p.head ∉ g.unreachable → ∀ a n b, p.body = a ++ .nonterminal n :: b →
    (∃ t, t ∈ g.firstSet n) → ¬g.IsBlocked b

instance (ss : List Symbol) : Decidable (g.IsBlocked ss) :=
  decidable_of_iff (g.derivesEmpty ss = false ∧ (g.firstOfText ss).toList = []) <|
    and_congr_right fun _ => List.eq_nil_iff_forall_not_mem

/-- Whether the symbols behind a leading non-terminal are not blocked, or it begins with no terminal. -/
def keepsCall (g : Grammar α) : List Symbol → Bool
  | .nonterminal n :: ss => (g.firstSet n).isEmpty || !decide (g.IsBlocked ss)
  | _ => true

theorem keepsCall_iff {ss : List Symbol} : g.keepsCall ss = true ↔
    ∀ n b, ss = .nonterminal n :: b → (∃ t, t ∈ g.firstSet n) → ¬g.IsBlocked b := by
  unfold keepsCall
  split
  · rename_i n b
    rw [Bool.or_eq_true, SortedSet.isEmpty_iff, Bool.not_eq_true', decide_eq_false_iff_not, ← imp_iff_not_or]
    constructor
    · rintro h _ _ ⟨⟩
      exact h
    · intro h
      exact h n b rfl
  · rename_i hne
    exact ⟨fun _ n b hss => absurd hss (hne n b), fun _ => rfl⟩

instance : Decidable g.IsUnblocked :=
  decidable_of_iff (∀ p ∈ g.productions, p.head ∉ g.unreachable → ∀ ss ∈ p.body.tails, g.keepsCall ss = true) <| by
    refine forall_congr' fun p => forall_congr' fun _ => forall_congr' fun _ => ?_
    simp only [List.mem_tails, keepsCall_iff]
    constructor
    · intro h a n b hb
      exact h _ ⟨a, hb.symm⟩ n b rfl
    · rintro h _ ⟨a, hb⟩ n b rfl
      exact h a n b hb.symm

/-- A terminal may follow what stands before a text that is not blocked. -/
theorem exists_mayFollow {ss : List Symbol} (h : ¬g.IsBlocked ss) (s : Terminal) : ∃ t, g.MayFollow ss s t := by
  by_cases he : g.derivesEmpty ss = true
  · exact ⟨s, .inr ⟨derivesEmpty_iff.mp he, rfl⟩⟩
  · by_cases hf : ∃ t, t ∈ g.firstOfText ss
    · obtain ⟨t, ht⟩ := hf
      exact ⟨t, .inl ht⟩
    · exact absurd ⟨Bool.eq_false_iff.mpr he, fun t ht => hf ⟨t, ht⟩⟩ h

/-- A text that yields something is not blocked. -/
theorem not_isBlocked_of_yields {ss : List Symbol} {w : List Terminal} (h : g.Yields ss w) : ¬g.IsBlocked ss := by
  rintro ⟨he, hf⟩
  cases w with
  | nil =>
    rw [derivesEmpty_iff.mpr h] at he
    cases he
  | cons t w => exact hf t (mem_firstOfText_of_yields h)

/-- Without underivable non-terminals nothing is blocked. -/
theorem isUnblocked_of_underivable (hu : g.underivable = []) : g.IsUnblocked := by
  intro p hp _ a n b hb _
  obtain ⟨w, hw⟩ := exists_yields_of_body_eq_append hu hp (hb.trans (List.append_cons a _ b))
  exact not_isBlocked_of_yields hw

/-! ## Reductions of a text -/

/-- A reduction on the lookahead `t` takes a body off the end of a text and puts its head there. -/
def ReducesTo (g : Grammar α) (t : Terminal) (γ γ' : List Symbol) : Prop :=
  ∃ p ∈ g.productions.tail, ∃ δ, γ = δ ++ p.body ∧ γ' = δ ++ [.nonterminal p.head] ∧
    p.item p.body.length t ∈ itemsAfter g γ

/-- From the text there is no endless chain of reductions on the lookahead `t`. -/
def Settles (g : Grammar α) (t : Terminal) (γ : List Symbol) : Prop := Acc (fun γ' γ => g.ReducesTo t γ γ') γ

section Deterministic

variable (hg : g.IsDeterministic) {γ δ : List Symbol} {p : Production α} {s t : Terminal}
include hg

namespace IsDeterministic

/-- A text with a completed production settles if the text that it is reduced to does. -/
theorem settles_of_completion (hp : p ∈ g.productions) (hit : p.item p.body.length t ∈ itemsAfter g (δ ++ p.body))
    (h : g.Settles t (δ ++ [.nonterminal p.head])) : g.Settles t (δ ++ p.body) := by
  constructor
  rintro γ' ⟨q, hq, ε, he, rfl, hqi⟩
  obtain rfl := hg.completion_unique _ p hp q (List.mem_of_mem_tail hq) t hit hqi
  obtain rfl := List.append_cancel_right he
  exact h

/-- A text settles where the augmented production is completed. -/
theorem settles_of_augmented (hit : g.augmented.item g.augmented.body.length t ∈ itemsAfter g γ) :
    g.Settles t γ := by
  constructor
  rintro γ' ⟨q, hq, ε, _, rfl, hqi⟩
  obtain rfl := hg.completion_unique _ _ augmented_mem q (List.mem_of_mem_tail hq) t hit hqi
  exact absurd rfl (mem_tail_iff.mp hq).2

/-- A text settles where the lookahead is shifted. -/
theorem settles_of_shift (hx : .terminal t ∈ (itemsAfter g γ).nextSymbols g) : g.Settles t γ := by
  constructor
  rintro γ' ⟨q, hq, ε, _, rfl, hqi⟩
  exact absurd hx (hg.not_shift _ q (List.mem_of_mem_tail hq) t hqi)

/-- Symbols that derive the empty text are reduced one after the other if the lookahead may follow them. -/
theorem settles_of_yields_nil {ss : List Symbol} {w : List Terminal} (h : g.Yields ss w) :
    ∀ {p : Production α} {a b : List Symbol} {s : Terminal} {γ : List Symbol}, w = [] → p ∈ g.productions →
      p.body = a ++ ss ++ b → p.item a.length s ∈ itemsAfter g γ → g.MayFollow b s t → g.Settles t (γ ++ ss) →
      g.Settles t γ := by
  induction h with
  | nil =>
    intro p a b s γ _ _ _ _ _ hs
    rwa [List.append_nil] at hs
  | terminal _ _ =>
    intro p a b s γ hw
    cases hw
  | @nonterminal q ss u v hq hu hv ihu ihv =>
    intro p a b s γ hw hp hb hit ht hs
    obtain ⟨rfl, rfl⟩ := List.append_eq_nil_iff.mp hw
    have hbefore : p.body = a ++ .nonterminal q.head :: (ss ++ b) := by simpa using hb
    have hbehind : p.body = (a ++ [.nonterminal q.head]) ++ ss ++ b := by simpa using hb
    have hnext : p.item (a ++ [Symbol.nonterminal q.head]).length s ∈ itemsAfter g (γ ++ [.nonterminal q.head]) :=
      item_mem_itemsAfter_append hp (b := ss ++ b) (by rw [hbehind, List.append_assoc]) hit
    -- the rest is reduced behind the head, the head is what the body is reduced to, and the body derives nothing either
    have hhead : g.Settles t (γ ++ [.nonterminal q.head]) := ihv rfl hp hbehind hnext ht (by simpa using hs)
    have hcall : q.item 0 t ∈ itemsAfter g γ := item_mem_itemsAfter_of_follow hp hq hbefore hit (ht.append hv)
    have hbody : g.Settles t (γ ++ q.body) :=
      hg.settles_of_completion hq (item_length_mem_itemsAfter hq hcall) hhead
    exact ihu rfl hq (a := []) (b := []) (by simp) hcall (.inr ⟨.nil, rfl⟩) hbody

variable (hb : g.IsUnblocked)
include hb

/-- A text settles where a symbol that begins with the lookahead stands after a dot. -/
theorem settles_of_beginsWith {x : Symbol} (h : g.BeginsWith x (.terminal t)) :
    ∀ γ, x ∈ (itemsAfter g γ).nextSymbols g → g.Settles t γ := by
  -- back along the beginnings, from the lookahead to the symbol
  suffices hback : ∀ y, g.BeginsWith x y → g.BeginsWith y (.terminal t) →
      (∀ γ, y ∈ (itemsAfter g γ).nextSymbols g → g.Settles t γ) →
      ∀ γ, x ∈ (itemsAfter g γ).nextSymbols g → g.Settles t γ by
    exact hback _ h (.start List.mem_cons_self) fun γ hx => hg.settles_of_shift hx
  intro y hy
  induction hy with
  | start hy =>
    rw [List.mem_singleton.mp hy]
    exact fun _ h => h
  | @step y z _ hz ih =>
    intro hzt hsettles
    have hyt : g.BeginsWith y (.terminal t) := ((Search.Reached.start List.mem_cons_self).step hz).trans hzt
    refine ih hyt fun γ hy => ?_
    cases y with
    | terminal u => exact absurd hz List.not_mem_nil
    | nonterminal n =>
      obtain ⟨q, hq, rfl, hlead⟩ := mem_beginnings_iff.mp hz
      obtain ⟨as, bs, hbody, has⟩ := exists_append_of_mem_leading hlead
      obtain ⟨p, hp, δ, a, b, s, hcall, hpb, rfl, hit⟩ := exists_callsFor_of_mem_nextSymbols hy
      have hblock := hb p hp hcall.notMem_unreachable a q.head b hpb ⟨t, mem_firstSet_iff.mpr hyt⟩
      obtain ⟨u, hu⟩ := exists_mayFollow hblock s
      have hq0 : q.item 0 u ∈ itemsAfter g (δ ++ a) := item_mem_itemsAfter_of_follow hp hq hpb hit hu
      have hz : z ∈ (itemsAfter g (δ ++ a ++ as)).nextSymbols g :=
        mem_nextSymbols_of_item_mem hq hbody (item_mem_itemsAfter_of_body hq hbody hq0)
      exact hg.settles_of_yields_nil has (a := []) rfl hq hbody hq0 (mayFollow_of_beginsWith hzt) (hsettles _ hz)

/-- A text settles where a part of a body that may begin with the lookahead stands behind a dot. -/
theorem settles_of_mem_firstOfText (hp : p ∈ g.productions) {a b : List Symbol} (hpb : p.body = a ++ b)
    (hit : p.item a.length s ∈ itemsAfter g γ) (ht : t ∈ g.firstOfText b) : g.Settles t γ := by
  obtain ⟨x, hx, hxt⟩ := mem_firstOfText_iff_beginsWith.mp ht
  obtain ⟨as, bs, rfl, has⟩ := exists_append_of_mem_leading hx
  rw [← List.append_assoc] at hpb
  have hnext : x ∈ (itemsAfter g (γ ++ as)).nextSymbols g :=
    mem_nextSymbols_of_item_mem hp hpb (item_mem_itemsAfter_append hp hpb hit)
  have hsettles := hg.settles_of_beginsWith hb hxt _ hnext
  exact hg.settles_of_yields_nil has rfl hp hpb hit (mayFollow_of_beginsWith hxt) hsettles

/-- **The bodies of what is called for settle on the lookahead of the call.** -/
theorem settles_of_callsFor {n : NonTerminal} (h : g.CallsFor δ n t) :
    ∀ q ∈ g.productions, q.head = n → g.Settles t (δ ++ q.body) := by
  induction h with
  | start =>
    intro q hq hn
    obtain rfl := (head_eq_augmentedStart_iff hq).mp hn
    have hcall := CallsFor.start.item_mem _ hq rfl
    exact hg.settles_of_augmented (item_length_mem_itemsAfter hq hcall)
  | @child p n δ a b s t hp hcall hpb ht ih =>
    rintro q hq rfl
    have hqi := (CallsFor.child hp hcall hpb ht).item_mem q hq rfl
    refine hg.settles_of_completion hq (item_length_mem_itemsAfter hq hqi) ?_
    have hpb' : p.body = (a ++ [.nonterminal q.head]) ++ b := by simpa using hpb
    have hpi : p.item (a ++ [Symbol.nonterminal q.head]).length s ∈ itemsAfter g (δ ++ a ++ [.nonterminal q.head]) := by
      rw [List.append_assoc]
      exact item_mem_itemsAfter_of_body hp hpb' (hcall.item_mem p hp rfl)
    rcases ht with ht | ⟨hempty, rfl⟩
    · exact hg.settles_of_mem_firstOfText hb hp hpb' hpi ht
    · -- the rest is reduced to its end, and the calling production is completed
      have hend : g.Settles t (δ ++ a ++ [.nonterminal q.head] ++ b) := by
        have hbody := ih p hp rfl
        rw [hpb'] at hbody
        simpa using hbody
      exact hg.settles_of_yields_nil hempty rfl hp (b := []) (by simpa using hpb') hpi (.inr ⟨.nil, rfl⟩) hend

/-- **In a deterministic grammar where nothing is blocked every text settles.** -/
theorem settles (t : Terminal) (γ : List Symbol) : g.Settles t γ := by
  constructor
  rintro γ' ⟨p, hp, ε, rfl, rfl, hit⟩
  obtain ⟨δ, he, hcall⟩ := exists_callsFor_of_item_mem (List.mem_of_mem_tail hp) (List.append_nil _).symm hit
  obtain rfl := List.append_cancel_right he
  have h := hg.settles_of_callsFor hb hcall p (List.mem_of_mem_tail hp) rfl
  exact h.inv ⟨p, hp, ε, rfl, rfl, hit⟩

end IsDeterministic

end Deterministic

end CanonicalLR.Grammar
