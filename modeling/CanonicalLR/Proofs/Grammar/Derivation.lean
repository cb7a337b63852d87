import CanonicalLR.Grammar.Basic
import Mathlib.Logic.Relation

/-!
# Derivations

A step of a derivation replaces the head of a production by its body somewhere in a text of symbols (`Produces`); a
rightmost step replaces the last non-terminal of the text (`RightProduces`). Derivations are chains of steps, and
`RightDerivesBy` also says by which productions. All productions take part, the augmented one among them.

`Yields` says by recursion on the productions which texts of terminals a text of symbols derives. The three views agree
on texts of terminals (`derives_iff_yields`, `rightDerives_iff_yields`).
-/

namespace CanonicalLR

variable {α : Type}

/-- A symbol of two texts one behind the other is in the first or in the second. -/
theorem append_eq_append_cons {β : Type} {x : β} {as bs cs ds : List β} (h : as ++ bs = cs ++ x :: ds) :
    (∃ es, as = cs ++ x :: es ∧ ds = es ++ bs) ∨ ∃ es, cs = as ++ es ∧ bs = es ++ x :: ds := by
  rcases List.append_eq_append_iff.mp h with ⟨es, hcs, hbs⟩ | ⟨es, has, hds⟩
  · exact .inr ⟨es, hcs, hbs⟩
  · cases es with
    | nil => exact .inr ⟨[], by simpa using has.symm, by simpa using hds.symm⟩
    | cons y es =>
      obtain ⟨rfl, rfl⟩ := List.cons.inj hds
      exact .inl ⟨es, has, rfl⟩

/-- A production rewrites a text at the last non-terminal, which is its head. -/
def Production.RewritesLast (p : Production α) (u v : List Symbol) : Prop :=
  ∃ (x : List Symbol) (w : List Terminal), u = x ++ .nonterminal p.head :: w.map Symbol.terminal ∧
    v = x ++ p.body ++ w.map Symbol.terminal

namespace Grammar

variable (g : Grammar α)

/-- A step replaces a head by a body. -/
def Produces (u v : List Symbol) : Prop :=
  ∃ p ∈ g.productions, ∃ x y, u = x ++ .nonterminal p.head :: y ∧ v = x ++ p.body ++ y

/-- A rightmost step replaces the last non-terminal. -/
def RightProduces (u v : List Symbol) : Prop := ∃ p ∈ g.productions, p.RewritesLast u v

/-- A derivation is a chain of steps. -/
def Derives : List Symbol → List Symbol → Prop := Relation.ReflTransGen g.Produces

/-- A rightmost derivation is a chain of rightmost steps. -/
def RightDerives : List Symbol → List Symbol → Prop := Relation.ReflTransGen g.RightProduces

/-- A rightmost derivation by the productions of a list, first to last. -/
inductive RightDerivesBy : List (Production α) → List Symbol → List Symbol → Prop
  | nil (u : List Symbol) : RightDerivesBy [] u u
  | cons {p : Production α} {ps : List (Production α)} {u v w : List Symbol} : p ∈ g.productions →
      p.RewritesLast u v → RightDerivesBy ps v w → RightDerivesBy (p :: ps) u w

/-- A text of symbols yields a text of terminals, each non-terminal by one of its productions. -/
inductive Yields : List Symbol → List Terminal → Prop
  | nil : Yields [] []
  | terminal {t : Terminal} {ss : List Symbol} {w : List Terminal} : Yields ss w →
      Yields (.terminal t :: ss) (t :: w)
  | nonterminal {p : Production α} {ss : List Symbol} {u w : List Terminal} : p ∈ g.productions →
      Yields p.body u → Yields ss w → Yields (.nonterminal p.head :: ss) (u ++ w)

variable {g}

/-! ## Steps in context -/

/-- A step may be made inside a longer text. -/
theorem Produces.context {u v : List Symbol} (h : g.Produces u v) (x y : List Symbol) :
    g.Produces (x ++ u ++ y) (x ++ v ++ y) := by
  obtain ⟨p, hp, a, b, rfl, rfl⟩ := h
  exact ⟨p, hp, x ++ a, b ++ y, by simp, by simp⟩

theorem Derives.context {u v : List Symbol} (h : g.Derives u v) (x y : List Symbol) :
    g.Derives (x ++ u ++ y) (x ++ v ++ y) := by
  induction h with
  | refl => exact .refl
  | tail _ hs ih => exact ih.tail (hs.context x y)

/-- Derivations of two texts make one of the whole. -/
theorem Derives.append {u u' v v' : List Symbol} (hu : g.Derives u u') (hv : g.Derives v v') :
    g.Derives (u ++ v) (u' ++ v') := by
  have h₁ := hu.context [] v
  have h₂ := hv.context u' []
  simp only [List.nil_append, List.append_nil] at h₁ h₂
  exact h₁.trans h₂

theorem derives_body {p : Production α} (hp : p ∈ g.productions) : g.Derives [.nonterminal p.head] p.body :=
  .single ⟨p, hp, [], [], by simp, by simp⟩

/-- A rightmost step may be made between any text and a text of terminals. -/
theorem RightProduces.context {u v : List Symbol} (h : g.RightProduces u v) (x : List Symbol) (w : List Terminal) :
    g.RightProduces (x ++ u ++ w.map Symbol.terminal) (x ++ v ++ w.map Symbol.terminal) := by
  obtain ⟨p, hp, a, b, rfl, rfl⟩ := h
  exact ⟨p, hp, x ++ a, b ++ w, by simp, by simp⟩

theorem RightDerives.context {u v : List Symbol} (h : g.RightDerives u v) (x : List Symbol) (w : List Terminal) :
    g.RightDerives (x ++ u ++ w.map Symbol.terminal) (x ++ v ++ w.map Symbol.terminal) := by
  induction h with
  | refl => exact .refl
  | tail _ hs ih => exact ih.tail (hs.context x w)

theorem RightProduces.produces {u v : List Symbol} (h : g.RightProduces u v) : g.Produces u v := by
  obtain ⟨p, hp, x, w, hu, hv⟩ := h
  exact ⟨p, hp, x, _, hu, hv⟩

theorem RightDerives.derives {u v : List Symbol} (h : g.RightDerives u v) : g.Derives u v := by
  induction h with
  | refl => exact .refl
  | tail _ hs ih => exact ih.tail hs.produces

theorem RightDerivesBy.rightDerives {ps : List (Production α)} {u v : List Symbol} (h : g.RightDerivesBy ps u v) :
    g.RightDerives u v := by
  induction h with
  | nil => exact .refl
  | cons hp hs _ ih => exact .head ⟨_, hp, hs⟩ ih

/-! ## Yields -/

theorem Yields.append {xs ys : List Symbol} {u v : List Terminal} (hx : g.Yields xs u) (hy : g.Yields ys v) :
    g.Yields (xs ++ ys) (u ++ v) := by
  induction hx with
  | nil => exact hy
  | terminal _ ih => exact .terminal ih
  | nonterminal hp hb _ _ ih =>
    rw [List.cons_append, List.append_assoc]
    exact .nonterminal hp hb ih

/-- A yield of a text falls into yields of its parts. -/
theorem Yields.split {xs ys : List Symbol} {w : List Terminal} (h : g.Yields (xs ++ ys) w) :
    ∃ u v, w = u ++ v ∧ g.Yields xs u ∧ g.Yields ys v := by
  induction xs generalizing w with
  | nil => exact ⟨[], w, rfl, .nil, h⟩
  | cons x xs ih =>
    cases h with
    | terminal h =>
      obtain ⟨u, v, rfl, hu, hv⟩ := ih h
      exact ⟨_ :: u, v, rfl, .terminal hu, hv⟩
    | nonterminal hp hb h =>
      obtain ⟨u, v, rfl, hu, hv⟩ := ih h
      exact ⟨_, v, (List.append_assoc ..).symm, .nonterminal hp hb hu, hv⟩

/-- A text yields the empty text just if its first symbol and the rest do. -/
theorem yields_cons_nil {s : Symbol} {ss : List Symbol} : g.Yields (s :: ss) [] ↔ g.Yields [s] [] ∧ g.Yields ss [] := by
  constructor
  · intro h
    have h' : g.Yields ([s] ++ ss) [] := h
    obtain ⟨u, v, huv, hu, hv⟩ := h'.split
    obtain ⟨rfl, rfl⟩ := List.append_eq_nil_iff.mp huv.symm
    exact ⟨hu, hv⟩
  · rintro ⟨hs, hss⟩
    exact hs.append hss

/-- A non-terminal yields what a body of it yields. -/
theorem Yields.head {p : Production α} {w : List Terminal} (hp : p ∈ g.productions) (h : g.Yields p.body w) :
    g.Yields [.nonterminal p.head] w := by
  have := Yields.nonterminal hp h .nil
  rwa [List.append_nil] at this

theorem yields_terminals (w : List Terminal) : g.Yields (w.map Symbol.terminal) w := by
  induction w with
  | nil => exact .nil
  | cons t w ih => exact .terminal ih

theorem eq_of_yields_terminals {w v : List Terminal} (h : g.Yields (w.map Symbol.terminal) v) : v = w := by
  induction w generalizing v with
  | nil => cases h; rfl
  | cons t w ih =>
    cases h with
    | terminal h => rw [ih h]

/-- A step back keeps the yield. -/
theorem Yields.of_produces {u v : List Symbol} {w : List Terminal} (hs : g.Produces u v) (h : g.Yields v w) :
    g.Yields u w := by
  obtain ⟨p, hp, x, y, rfl, rfl⟩ := hs
  obtain ⟨w₁, w₂, rfl, h₁, hy⟩ := h.split
  obtain ⟨w₀, wb, rfl, hx, hb⟩ := h₁.split
  rw [List.append_assoc]
  exact hx.append (.nonterminal hp hb hy)

/-- What a text derives yields no more than the text. -/
theorem Yields.of_derives {u v : List Symbol} {w : List Terminal} (hd : g.Derives u v) (h : g.Yields v w) :
    g.Yields u w := by
  induction hd with
  | refl => exact h
  | tail _ hs ih => exact ih (h.of_produces hs)

/-- A yield is reached by a rightmost derivation. -/
theorem Yields.rightDerives {ss : List Symbol} {w : List Terminal} (h : g.Yields ss w) :
    g.RightDerives ss (w.map Symbol.terminal) := by
  induction h with
  | nil => exact .refl
  | @terminal t ss w _ ih =>
    have := ih.context [.terminal t] []
    simpa using this
  | @nonterminal p ss u w hp _ _ ihb ih =>
    -- the symbols behind the head come first, then the head, then its body
    have h₁ : g.RightDerives (.nonterminal p.head :: ss) (.nonterminal p.head :: w.map Symbol.terminal) := by
      simpa using ih.context [.nonterminal p.head] []
    have h₂ : g.RightDerives (p.body ++ w.map Symbol.terminal) ((u ++ w).map Symbol.terminal) := by
      simpa using ihb.context [] w
    exact h₁.trans (.head ⟨p, hp, [], w, by simp, by simp⟩ h₂)

/-- **The texts of terminals that a text derives are its yields.** -/
theorem derives_iff_yields {ss : List Symbol} {w : List Terminal} :
    g.Derives ss (w.map Symbol.terminal) ↔ g.Yields ss w :=
  ⟨(yields_terminals w).of_derives, fun h => h.rightDerives.derives⟩

/-- **The same texts have rightmost derivations.** -/
theorem rightDerives_iff_yields {ss : List Symbol} {w : List Terminal} :
    g.RightDerives ss (w.map Symbol.terminal) ↔ g.Yields ss w :=
  ⟨fun h => derives_iff_yields.mp h.derives, Yields.rightDerives⟩

end Grammar

end CanonicalLR
