import CanonicalLR.Proofs.Automaton.Call

/-!
# The rules that the states show

An item is in a state only if its production was called for somewhere, so no state shows a rule of an unreachable
non-terminal. Conversely bodies lead from the start symbol to a reachable non-terminal, and along them it is called for,
as long as there is always a terminal that may follow (`exists_callsFor_of_isReachable`). There is one if what stands
behind it derives something; then the rules of reachable non-terminals are shown with every dot
(`exists_item_mem_of_notMem_unreachable`).
-/

namespace CanonicalLR

open Grammar

variable {α : Type} {g : Grammar α} {n : NonTerminal} {p : Production α} {s : ItemSet} {it : Item} {k : Nat}

/-! ## No other rules -/

/-- The production of an item of a state has a head that is not unreachable. -/
theorem exists_head_of_mem_states (hs : s ∈ (canonicalAutomaton g).states) (hit : it ∈ s) :
    ∃ p, g.production? it.production = some p ∧ p.head ∉ g.unreachable := by
  obtain ⟨γ, rfl⟩ := exists_itemsAfter_eq hs
  obtain ⟨p, hp, δ, a, b, t, hc, -, -, rfl⟩ := mem_itemsAfter_iff_isCalled.mp hit
  exact ⟨p, production?_number hp, hc.notMem_unreachable⟩

/-! ## All these rules -/

/-- A head that is not unreachable is the augmented start or reachable. -/
theorem eq_or_isReachable_of_notMem_unreachable (hp : p ∈ g.productions) (h : p.head ∉ g.unreachable) :
    p.head = augmentedStart ∨ g.IsReachable p.head := by
  rcases eq_augmented_or_mem_rules hp with rfl | hr
  · exact .inl rfl
  · right
    by_contra hn
    have hmem : p.head ∈ g.nonterminals := Rulebook.mem_heads.mpr ⟨p.toRule, hr, rfl⟩
    exact h (mem_unreachable_iff.mpr ⟨hmem, hn⟩)

section Derivable

variable (hd : g.underivable = [])
include hd

/-- Where every non-terminal derives something, the reachable ones are called for. -/
theorem exists_callsFor_of_isReachable (h : g.IsReachable n) : ∃ δ t, g.CallsFor δ n t := by
  induction h with
  | start h =>
    obtain rfl := List.mem_singleton.mp h
    exact ⟨_, _, .child (a := []) (b := []) augmented_mem .start rfl (.inr ⟨.nil, rfl⟩)⟩
  | @step m n _ hm ih =>
    obtain ⟨δ, s, hc⟩ := ih
    obtain ⟨p, hp, rfl, hmem⟩ := mem_mentions_iff.mp hm
    obtain ⟨a, b, hb⟩ := List.append_of_mem hmem
    -- what stands behind the non-terminal derives something, so a terminal may follow it
    obtain ⟨v, hv⟩ := exists_yields_of_body_eq_append hd hp (hb.trans (List.append_cons a _ b))
    have hfollow : g.MayFollow b s ((v ++ [s]).headD endMark) := mayFollow_of_yields (w := [s]) hv
    exact ⟨δ ++ a, _, .child hp hc hb hfollow⟩

/-- Where every non-terminal derives something, the heads that are not unreachable are called for. -/
theorem exists_callsFor_of_notMem_unreachable (hp : p ∈ g.productions) (h : p.head ∉ g.unreachable) :
    ∃ δ t, g.CallsFor δ p.head t := by
  rcases eq_or_isReachable_of_notMem_unreachable hp h with hstart | hreach
  · exact ⟨[], endMark, hstart ▸ .start⟩
  · exact exists_callsFor_of_isReachable hd hreach

/-- Where every non-terminal derives something, the productions of such heads are shown with every dot. -/
theorem exists_item_mem_of_notMem_unreachable (hp : p ∈ g.productions) (h : p.head ∉ g.unreachable)
    (hk : k ≤ p.body.length) : ∃ s ∈ (canonicalAutomaton g).states, ∃ t, p.item k t ∈ s := by
  obtain ⟨δ, t, hc⟩ := exists_callsFor_of_notMem_unreachable hd hp h
  have hbody : p.body = p.body.take k ++ p.body.drop k := (List.take_append_drop k p.body).symm
  have hit := item_mem_itemsAfter_of_body hp hbody (hc.item_mem p hp rfl)
  rw [List.length_take_of_le hk] at hit
  exact ⟨_, itemsAfter_mem_states hit, t, hit⟩

end Derivable

/-! ## Just these rules -/

/-- The states of an automaton show the rules of a grammar that are of use: none with an unreachable head, and if there
are no underivable non-terminals, all others with the dot at every place. -/
structure Automaton.ShowsUseful (a : Automaton α) (g : Grammar α) : Prop where
  reachable : ∀ s ∈ a.states, ∀ it ∈ s, ∃ p, g.production? it.production = some p ∧ p.head ∉ g.unreachable
  complete : g.underivable = [] → ∀ p ∈ g.productions, p.head ∉ g.unreachable → ∀ k ≤ p.body.length,
    ∃ s ∈ a.states, ∃ it ∈ s, it.production = p.number ∧ it.dot = k

/-- **The canonical automaton shows the rules that are of use.** -/
theorem showsUseful_canonicalAutomaton (g : Grammar α) : (canonicalAutomaton g).ShowsUseful g where
  reachable _ hs _ hit := exists_head_of_mem_states hs hit
  complete hd p hp h k hk := by
    obtain ⟨s, hs, t, hit⟩ := exists_item_mem_of_notMem_unreachable hd hp h hk
    exact ⟨s, hs, p.item k t, hit, rfl, rfl⟩

namespace Aside

def x : Terminal := ⟨"x", by decide⟩

def start : NonTerminal := ⟨"R", by decide⟩

def tail : NonTerminal := ⟨"X", by decide⟩

def aside : NonTerminal := ⟨"Z", by decide⟩

/-- The rules `R → x X`, an empty one for `X`, and `Z → X x`, which no other rule leads to. -/
def grammar : Grammar Unit :=
  .make ⟨[x], by decide, by decide⟩
    ⟨[(⟨start, [x, tail]⟩, none), (⟨tail, []⟩, none), (⟨aside, [tail, x]⟩, none)], by decide, by decide⟩
    start (by decide) (by decide)

/-- The empty rule is shown, and the rule that stands aside is not. -/
theorem showsUseful_aside : grammar.underivable = [] ∧ grammar.unreachable = [aside] ∧
    (∃ s ∈ (canonicalAutomaton grammar).states, ∃ it ∈ s, it.production = 2 ∧ it.dot = 0) ∧
    ∀ s ∈ (canonicalAutomaton grammar).states, ∀ it ∈ s, it.production ≠ 3 := by
  have hd : grammar.underivable = [] := by decide
  have hu : grammar.unreachable = [aside] := by decide
  obtain ⟨hreachable, hcomplete⟩ := showsUseful_canonicalAutomaton grammar
  refine ⟨hd, hu, ?_, fun s hs it hit hthree => ?_⟩
  · have hempty : ⟨⟨tail, []⟩, 2, none⟩ ∈ grammar.productions := .tail _ (.tail _ (.head _))
    refine hcomplete hd _ hempty ?_ 0 (Nat.zero_le _)
    rw [hu]
    decide
  · obtain ⟨p, hp, hhead⟩ := hreachable s hs it hit
    rw [hthree] at hp
    obtain rfl := Option.some.inj (hp.symm.trans (rfl : grammar.production? 3 = some ⟨⟨aside, [tail, x]⟩, 3, none⟩))
    rw [hu] at hhead
    exact hhead List.mem_cons_self

/-- The rules `R → X Z`, `X → x` and `Z → Z x`: nothing that `Z` derives tells what follows `X`. -/
def blocked : Grammar Unit :=
  .make ⟨[x], by decide, by decide⟩
    ⟨[(⟨start, [tail, aside]⟩, none), (⟨tail, [x]⟩, none), (⟨aside, [aside, x]⟩, none)], by decide, by decide⟩
    start (by decide) (by decide)

/-- A rule of use need not be shown where an underivable non-terminal stands behind its head. -/
example : tail ∉ blocked.unreachable ∧
    ∀ s ∈ (canonicalAutomaton blocked).states, ∀ it ∈ s.toList, it.production ≠ 2 := by
  decide +kernel

end Aside

end CanonicalLR
