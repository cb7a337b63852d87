import CanonicalLR.Proofs.Grammar.Analysis
import Mathlib.Data.Finset.Card
import Mathlib.Data.Finset.Dedup

/-!
# Cycles and hidden left recursion

A grammar has a cycle if some non-terminal derives just itself in one or more steps, and hidden left recursion if some
non-terminal derives a text with itself behind a text that is not empty but derives the empty text. Ordinary left
recursion is neither.

There are finitely many non-terminals with productions. So without cycles there is no endless ascent from a symbol to
symbols that derive just it (`HasNoCycle.wellFounded_risesTo`), and without hidden left recursion the number of
non-terminals that hide a given one grows with every text that a body hides behind (`hiderCount_lt`).
-/

namespace CanonicalLR.Grammar

variable {α : Type} {g : Grammar α}

/-- A derivation of at least one step. -/
def DerivesInSteps (g : Grammar α) : List Symbol → List Symbol → Prop := Relation.TransGen g.Produces

/-- No non-terminal derives just itself in one or more steps. -/
def HasNoCycle (g : Grammar α) : Prop := ∀ n, ¬g.DerivesInSteps [.nonterminal n] [.nonterminal n]

/-- No non-terminal derives a text with itself behind a text that is not empty and derives the empty text. -/
def HasNoHiddenLeftRecursion (g : Grammar α) : Prop := ∀ n x y, x ≠ [] → g.Derives x [] →
  ¬g.DerivesInSteps [.nonterminal n] (x ++ .nonterminal n :: y)

/-! ## First and last steps -/

/-- A step from a single symbol replaces it by a body. -/
theorem produces_singleton_iff {s : Symbol} {v : List Symbol} :
    g.Produces [s] v ↔ ∃ p ∈ g.productions, s = .nonterminal p.head ∧ v = p.body := by
  constructor
  · rintro ⟨p, hp, x, y, he, rfl⟩
    rcases List.append_eq_singleton_iff.mp he.symm with ⟨rfl, he⟩ | ⟨_, he⟩
    · obtain ⟨rfl, rfl⟩ := List.cons.inj he
      exact ⟨p, hp, rfl, by simp⟩
    · cases he
  · rintro ⟨p, hp, rfl, rfl⟩
    exact ⟨p, hp, [], [], by simp, by simp⟩

/-- A derivation of at least one step from a single symbol begins with a body of it. -/
theorem DerivesInSteps.exists_production {s : Symbol} {v : List Symbol} (h : g.DerivesInSteps [s] v) :
    ∃ p ∈ g.productions, s = .nonterminal p.head ∧ g.Derives p.body v := by
  obtain ⟨u, hu, hv⟩ := Relation.TransGen.head'_iff.mp h
  obtain ⟨p, hp, rfl, rfl⟩ := produces_singleton_iff.mp hu
  exact ⟨p, hp, rfl, hv⟩

theorem derivesInSteps_of_body {p : Production α} (hp : p ∈ g.productions) {v : List Symbol}
    (h : g.Derives p.body v) : g.DerivesInSteps [.nonterminal p.head] v :=
  Relation.TransGen.head' (produces_singleton_iff.mpr ⟨p, hp, rfl, rfl⟩) h

/-- A text derives the empty text just if both its parts do. -/
theorem derives_append_nil_iff {x y : List Symbol} :
    g.Derives (x ++ y) [] ↔ g.Derives x [] ∧ g.Derives y [] := by
  constructor
  · intro h
    obtain ⟨u, v, huv, hu, hv⟩ := (derives_iff_yields (w := []).mp h).split
    obtain ⟨rfl, rfl⟩ := List.append_eq_nil_iff.mp huv.symm
    exact ⟨derives_iff_yields.mpr hu, derives_iff_yields.mpr hv⟩
  · rintro ⟨hx, hy⟩
    exact hx.append hy

/-- The empty text derives nothing else. -/
theorem eq_nil_of_derives_nil {v : List Symbol} (h : g.Derives [] v) : v = [] := by
  rcases Relation.ReflTransGen.cases_head h with rfl | ⟨u, ⟨p, _, x, y, he, _⟩, _⟩
  · rfl
  · exact absurd he (by simp)

/-! ## Counting non-terminals -/

open Classical in
/-- The number of non-terminals with productions that have a property. -/
noncomputable def headCount (g : Grammar α) (P : NonTerminal → Prop) : Nat :=
  ((headsOf g.productions).toFinset.filter P).card

open Classical in
theorem heads_filter_subset {P Q : NonTerminal → Prop} (h : ∀ m, P m → Q m) :
    (headsOf g.productions).toFinset.filter P ⊆ (headsOf g.productions).toFinset.filter Q :=
  Finset.monotone_filter_right _ fun m _ => h m

theorem headCount_le {P Q : NonTerminal → Prop} (h : ∀ m, P m → Q m) : g.headCount P ≤ g.headCount Q :=
  Finset.card_le_card (heads_filter_subset h)

/-- A weaker property has more non-terminals, if one of them has productions and not the stronger property. -/
theorem headCount_lt {P Q : NonTerminal → Prop} (h : ∀ m, P m → Q m) {p : Production α} (hp : p ∈ g.productions)
    (hq : Q p.head) (hnp : ¬P p.head) : g.headCount P < g.headCount Q := by
  classical
  have hm : p.head ∈ (headsOf g.productions).toFinset :=
    List.mem_toFinset.mpr (mem_distinct.mpr (List.mem_map_of_mem hp))
  refine Finset.card_lt_card ((Finset.ssubset_iff_of_subset (heads_filter_subset h)).mpr ?_)
  exact ⟨p.head, Finset.mem_filter.mpr ⟨hm, hq⟩, fun hf => hnp (Finset.mem_filter.mp hf).2⟩

/-- There are no more non-terminals than heads. -/
theorem headCount_le_length {P : NonTerminal → Prop} : g.headCount P ≤ (headsOf g.productions).length := by
  classical
  exact (Finset.card_filter_le _ _).trans (List.toFinset_card_le _)

/-! ## Ascent without cycles -/

/-- **Without cycles there is no endless ascent** from a symbol to symbols that derive just it. -/
theorem HasNoCycle.wellFounded_risesTo (h : g.HasNoCycle) :
    WellFounded fun s' s : Symbol => g.DerivesInSteps [s'] [s] := by
  have hlt : ∀ s' s : Symbol, g.DerivesInSteps [s'] [s] →
      g.headCount (fun m => g.DerivesInSteps [.nonterminal m] [s']) <
        g.headCount fun m => g.DerivesInSteps [.nonterminal m] [s] := by
    intro s' s hs
    obtain ⟨p, hp, rfl, _⟩ := hs.exists_production
    exact headCount_lt (fun m hm => hm.trans hs) hp hs (h p.head)
  exact Subrelation.wf (fun {s' s} => hlt s' s)
    (measure fun s : Symbol => g.headCount fun m => g.DerivesInSteps [.nonterminal m] [s]).wf

/-! ## What hides a non-terminal -/

/-- A non-terminal hides another if it derives a text with the other behind a text that is not empty and derives the
empty text. -/
def Hides (g : Grammar α) (m n : NonTerminal) : Prop := ∃ x y, x ≠ [] ∧ g.Derives x [] ∧
  g.DerivesInSteps [.nonterminal m] (x ++ .nonterminal n :: y)

/-- The number of non-terminals that hide a given one. -/
noncomputable def hiderCount (g : Grammar α) (n : NonTerminal) : Nat := g.headCount fun m => g.Hides m n

section Body

variable {p : Production α} (hp : p ∈ g.productions) {a b : List Symbol} {n : NonTerminal}
  (hb : p.body = a ++ .nonterminal n :: b) (ha : g.Derives a [])
include hp hb ha

/-- What hides a head also hides a non-terminal in its body behind a text that derives the empty text. -/
theorem Hides.child {m : NonTerminal} (h : g.Hides m p.head) : g.Hides m n := by
  obtain ⟨x, y, hx, hxe, hd⟩ := h
  refine ⟨x ++ a, b ++ y, by simp [hx], derives_append_nil_iff.mpr ⟨hxe, ha⟩, hd.tail ⟨p, hp, x, y, rfl, ?_⟩⟩
  rw [hb]
  simp

theorem hiderCount_le : g.hiderCount p.head ≤ g.hiderCount n :=
  headCount_le fun _ h => h.child hp hb ha

/-- **Without hidden left recursion more hides what stands in a body behind a text than hides the head.** -/
theorem hiderCount_lt (h : g.HasNoHiddenLeftRecursion) (hne : a ≠ []) : g.hiderCount p.head < g.hiderCount n := by
  have hides : g.Hides p.head n := ⟨a, b, hne, ha, derivesInSteps_of_body hp (hb ▸ .refl)⟩
  refine headCount_lt (fun _ hm => hm.child hp hb ha) hp hides ?_
  rintro ⟨x, y, hx, hxe, hd⟩
  exact h p.head x y hx hxe hd

end Body

/-! ## Ranks -/

/-- Bodies put one into the other lead from a non-terminal to another, with texts before and behind it. -/
inductive Nests (g : Grammar α) : NonTerminal → List Symbol → NonTerminal → List Symbol → Prop
  | refl (n : NonTerminal) : Nests g n [] n []
  | step {p : Production α} {n m : NonTerminal} {a b c d : List Symbol} : p ∈ g.productions →
      p.body = a ++ .nonterminal n :: b → Nests g n c m d → Nests g p.head (a ++ c) m (d ++ b)

/-- A non-terminal in a derived text comes, through bodies, from one in the text that it is derived from. -/
theorem exists_nests_of_derives {u x y : List Symbol} {m : NonTerminal} (h : g.Derives u (x ++ .nonterminal m :: y)) :
    ∃ a n b c d, u = a ++ .nonterminal n :: b ∧ g.Nests n c m d ∧ g.Derives (a ++ c) x ∧ g.Derives (d ++ b) y := by
  induction h using Relation.ReflTransGen.head_induction_on with
  | refl => exact ⟨x, m, y, [], [], rfl, .refl m, by rw [List.append_nil]; exact .refl, .refl⟩
  | head hs _ ih =>
    obtain ⟨a, n, b, c, d, hv, hn, hx, hy⟩ := ih
    obtain ⟨p, hp, x', y', rfl, rfl⟩ := hs
    rw [List.append_assoc] at hv
    rcases append_eq_append_cons hv with ⟨e, rfl, rfl⟩ | ⟨e, rfl, hv'⟩
    · -- it stands before what is replaced
      have hy' : g.Derives (d ++ e ++ p.body ++ y') y := by simpa using hy
      exact ⟨a, n, e ++ .nonterminal p.head :: y', c, d, by simp, hn, hx, .head ⟨p, hp, d ++ e, y', by simp, rfl⟩ hy'⟩
    · rcases append_eq_append_cons hv' with ⟨f, hb, rfl⟩ | ⟨f, rfl, rfl⟩
      · -- the step put it in
        exact ⟨x', p.head, y', e ++ c, d ++ f, rfl, .step hp hb hn, by simpa using hx, by simpa using hy⟩
      · -- it stands behind what is replaced
        have hx' : g.Derives (x' ++ p.body ++ (f ++ c)) x := by simpa using hx
        exact ⟨x' ++ .nonterminal p.head :: f, n, b, c, d, by simp, hn, .head ⟨p, hp, x', f ++ c, by simp, rfl⟩ hx', hy⟩

/-- The rank falls from a head to a non-terminal of a body if all else in the body derives the empty text. -/
def FallsAlone (g : Grammar α) (rank : NonTerminal → Nat) : Prop :=
  ∀ p ∈ g.productions, ∀ k < p.body.length, ∀ n ∈ p.body[k]?.bind Symbol.nonterminal?,
    g.derivesEmpty (p.body.take k) = true → g.derivesEmpty (p.body.drop (k + 1)) = true → rank n < rank p.head

/-- The rank does not rise from a head to a non-terminal that stands in a body behind what derives the empty text, and
it falls if this is not empty. -/
def FallsBehind (g : Grammar α) (rank : NonTerminal → Nat) : Prop :=
  ∀ p ∈ g.productions, ∀ k < p.body.length, ∀ n ∈ p.body[k]?.bind Symbol.nonterminal?,
    g.derivesEmpty (p.body.take k) = true → rank n + min k 1 ≤ rank p.head

instance (rank : NonTerminal → Nat) : Decidable (g.FallsAlone rank) :=
  inferInstanceAs (Decidable (∀ p ∈ g.productions, ∀ k < p.body.length,
    ∀ n ∈ p.body[k]?.bind Symbol.nonterminal?, _ → _ → _))

instance (rank : NonTerminal → Nat) : Decidable (g.FallsBehind rank) :=
  inferInstanceAs (Decidable (∀ p ∈ g.productions, ∀ k < p.body.length,
    ∀ n ∈ p.body[k]?.bind Symbol.nonterminal?, _ → _))

section Rank

variable {rank : NonTerminal → Nat} {p : Production α} {a b : List Symbol} {n : NonTerminal}

theorem FallsAlone.lt (h : g.FallsAlone rank) (hp : p ∈ g.productions) (hb : p.body = a ++ .nonterminal n :: b)
    (ha : g.Derives a []) (hbe : g.Derives b []) : rank n < rank p.head := by
  refine h p hp a.length (by simp [hb]) n (by simp [hb, Symbol.nonterminal?]) ?_ ?_
  · rw [hb, List.take_left]
    exact derivesEmpty_iff_derives.mpr ha
  · rw [hb, List.append_cons, List.drop_left' (by simp)]
    exact derivesEmpty_iff_derives.mpr hbe

theorem FallsBehind.le (h : g.FallsBehind rank) (hp : p ∈ g.productions) (hb : p.body = a ++ .nonterminal n :: b)
    (ha : g.Derives a []) : rank n + min a.length 1 ≤ rank p.head := by
  refine h p hp a.length (by simp [hb]) n (by simp [hb, Symbol.nonterminal?]) ?_
  rw [hb, List.take_left]
  exact derivesEmpty_iff_derives.mpr ha

/-- Along nested bodies in which all else derives the empty text the rank does not rise. -/
theorem FallsAlone.le_of_nests (h : g.FallsAlone rank) {m : NonTerminal} (hn : g.Nests n a m b) :
    g.Derives a [] → g.Derives b [] → rank m ≤ rank n := by
  induction hn with
  | refl => exact fun _ _ => Nat.le_refl _
  | step hp hb _ ih =>
    intro ha hbe
    obtain ⟨ha, hc⟩ := derives_append_nil_iff.mp ha
    obtain ⟨hd, hbe⟩ := derives_append_nil_iff.mp hbe
    exact (ih hc hd).trans (h.lt hp hb ha hbe).le

/-- Along nested bodies the rank falls where something that derives the empty text stands before. -/
theorem FallsBehind.le_of_nests (h : g.FallsBehind rank) {m : NonTerminal} (hn : g.Nests n a m b) :
    g.Derives a [] → rank m + min a.length 1 ≤ rank n := by
  induction hn with
  | refl => exact fun _ => Nat.le_refl _
  | step hp hb _ ih =>
    intro ha
    obtain ⟨ha, hc⟩ := derives_append_nil_iff.mp ha
    have hlow := ih hc
    have hstep := h.le hp hb ha
    rw [List.length_append]
    omega

/-- **A rank that falls along bodies in which all else derives the empty text excludes cycles.** -/
theorem hasNoCycle_of_fallsAlone (h : g.FallsAlone rank) : g.HasNoCycle := by
  intro n hn
  obtain ⟨p, hp, he, hd⟩ := hn.exists_production
  obtain rfl := Symbol.nonterminal.inj he
  obtain ⟨a, k, b, c, d, hb, hk, hac, hdb⟩ := exists_nests_of_derives (x := []) (y := []) hd
  obtain ⟨ha, hc⟩ := derives_append_nil_iff.mp hac
  obtain ⟨hd, hbe⟩ := derives_append_nil_iff.mp hdb
  have hle := h.le_of_nests hk hc hd
  have hlt := h.lt hp hb ha hbe
  omega

/-- **A rank that falls behind what derives the empty text, and never rises, excludes hidden left recursion.** -/
theorem hasNoHiddenLeftRecursion_of_fallsBehind (h : g.FallsBehind rank) : g.HasNoHiddenLeftRecursion := by
  intro n x y hx hxe hn
  obtain ⟨p, hp, he, hd⟩ := hn.exists_production
  obtain rfl := Symbol.nonterminal.inj he
  obtain ⟨a, k, b, c, d, hb, hk, hac, _⟩ := exists_nests_of_derives hd
  obtain ⟨ha, hc⟩ := derives_append_nil_iff.mp (hac.trans hxe)
  have hle := h.le_of_nests hk hc
  have hstep := h.le hp hb ha
  have hne : a.length + c.length ≠ 0 := by
    intro h0
    obtain rfl := List.length_eq_zero_iff.mp (Nat.eq_zero_of_add_eq_zero_right h0)
    obtain rfl := List.length_eq_zero_iff.mp (Nat.eq_zero_of_add_eq_zero_left h0)
    exact hx (eq_nil_of_derives_nil hac)
  omega

end Rank

end CanonicalLR.Grammar
