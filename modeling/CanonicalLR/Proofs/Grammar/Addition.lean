import CanonicalLR.Proofs.Grammar.Rebuilding
import CanonicalLR.Proofs.Search

/-!
# What adding a rule changes

The symbols of a body are read one after the other, and the literals among them are declared on the way. Up to the
first faulty symbol this neither fails nor depends on what follows (`Builder.readSymbols_append`).

So there are three ways in which adding a rule can end (`Builder.Addition`). A head that cannot be one is refused, and
nothing changes. A faulty symbol leaves the literals before it behind, and no rule. If no symbol is faulty, the rule is
appended. What is declared is declared behind the terminals there were, and nothing else ever changes
(`Builder.addition_add`).
-/

namespace CanonicalLR

namespace Builder

variable {α : Type}

/-! ## Symbols as they are written -/

/-- The name that a literal declares: a single character between two quotes of one kind is one. -/
def literal? (s : String) : Option String :=
  match s.toList with
  | [q, c, r] => if q ∈ quotes ∧ r = q then some c.toString else none
  | _ => none

/-- A symbol that cannot be read: there is nothing to it, or there are quotes around anything but a single character. -/
def IsFaulty (s : String) : Prop := s = "" ∨ IsQuoted s ∧ literal? s = none

instance (s : String) : Decidable (IsFaulty s) := inferInstanceAs (Decidable (s = "" ∨ IsQuoted s ∧ literal? s = none))

/-- The name that a symbol stands for: that of a literal is its character, any other symbol is one. -/
def meaning (s : String) : String := (literal? s).getD s

/-- The error that a faulty symbol of a rule leads to. -/
def faultOf (head s : String) : GrammarError := if s = "" then .emptyName head else .badLiteral s head

/-- The names of the literals in a body that are not yet known, each at its first place only. -/
def newLiterals (known body : List String) : List String := fresh known (body.filterMap literal?)

/-- A symbol is read as what it turns out to be. -/
theorem readSymbol_eq (s : String) : readSymbol s =
    match literal? s with
    | some c => .literal c
    | none => if s = "" then .missing else if IsQuoted s then .malformed else .plain s := by
  unfold readSymbol
  split
  · rename_i hs
    obtain rfl : s = "" := String.toList_eq_nil_iff.mp hs
    rfl
  · rename_i q cs hs
    have hne : s ≠ "" := fun h => List.cons_ne_nil q cs (hs.symm.trans (String.toList_eq_nil_iff.mpr h))
    simp only [literal?, IsQuoted, hs, if_neg hne]
    rcases cs with _ | ⟨c, _ | ⟨r, _ | ⟨x, xs⟩⟩⟩ <;> simp [quotes] <;> grind

/-- A literal is never reserved: declaring it as any other terminal would not fail. -/
theorem declare_of_literal? {b : Builder α} {s c : String} (h : literal? s = some c) :
    b.declare c = .ok { b with terminals := declareName b.terminals c } := by
  unfold literal? at h
  split at h
  · rename_i d _ _
    obtain ⟨-, h⟩ := Option.ite_none_right_eq_some.mp h
    obtain rfl := Option.some.inj h
    have hlength : d.toString.length = 1 := by simp
    have hreserved : endMark.name.length ≠ 1 ∧ augmentedStart.name.length ≠ 1 := by decide
    refine if_neg ?_
    rintro (hd | hd)
    · exact hreserved.1 (hd ▸ hlength)
    · exact hreserved.2 (hd ▸ hlength)
  · cases h

/-! ## The symbols of a body -/

theorem readSymbols_cons_of_isFaulty {head s : String} {known after : List String} (h : IsFaulty s) :
    readSymbols head known (s :: after) = (known, .error (faultOf head s)) := by
  rcases h with rfl | ⟨hquoted, hnone⟩
  · rfl
  · have hne : s ≠ "" := by
      rintro rfl
      exact absurd hquoted (by decide)
    rw [readSymbols, readSymbol_eq, hnone]
    simp only [if_neg hne, if_pos hquoted, faultOf]

/-- A symbol that is not faulty is read before the others, and declared if it is a literal. -/
theorem readSymbols_cons {head s : String} {known after : List String} (h : ¬IsFaulty s) :
    readSymbols head known (s :: after) =
      ((readSymbols head ((literal? s).elim known (declareName known)) after).1,
        (meaning s :: ·) <$> (readSymbols head ((literal? s).elim known (declareName known)) after).2) := by
  rw [readSymbols, readSymbol_eq, meaning]
  cases hliteral : literal? s with
  | some c => rfl
  | none =>
    have hne : s ≠ "" := fun hs => h (.inl hs)
    have hplain : ¬IsQuoted s := fun hs => h (.inr ⟨hs, hliteral⟩)
    simp only [if_neg hne, if_neg hplain]
    rfl

/-- A symbol is declared before those behind it, or all are declared together. -/
theorem declare_append_newLiterals {s : String} {known body : List String} :
    (literal? s).elim known (declareName known) ++ newLiterals ((literal? s).elim known (declareName known)) body =
      known ++ newLiterals known (s :: body) := by
  rw [newLiterals, newLiterals, List.filterMap_cons]
  cases literal? s with
  | none => rfl
  | some c => exact append_fresh_cons

/-- **What comes before the first fault is read as if nothing followed.** -/
theorem readSymbols_append {head : String} {known before : List String} (hbefore : ∀ s ∈ before, ¬IsFaulty s)
    (after : List String) : readSymbols head known (before ++ after) =
      ((readSymbols head (known ++ newLiterals known before) after).1,
        (before.map meaning ++ ·) <$> (readSymbols head (known ++ newLiterals known before) after).2) := by
  induction before generalizing known with
  | nil =>
    rw [newLiterals, List.filterMap_nil, fresh, List.append_nil, List.nil_append, List.map_nil]
    exact Prod.ext rfl (id_map _).symm
  | cons s before ih =>
    rw [List.cons_append, readSymbols_cons (hbefore s List.mem_cons_self),
      ih fun s' hs' => hbefore s' (List.mem_cons_of_mem s hs'), declare_append_newLiterals, ← comp_map]
    rfl

theorem readSymbols_eq_ok {head : String} {known body : List String} (hbody : ∀ s ∈ body, ¬IsFaulty s) :
    readSymbols head known body = (known ++ newLiterals known body, .ok (body.map meaning)) := by
  have h := @readSymbols_append head known body hbody []
  rw [List.append_nil] at h
  rw [h]
  exact Prod.ext rfl (congrArg Except.ok (List.append_nil _))

/-! ## Adding a rule -/

/-- What adding a rule to a builder may come to: the builder that results, and the error if there is one. -/
inductive Addition (b : Builder α) (r : NamedRule α) : Builder α × Option GrammarError → Prop
  /-- The head is a terminal. -/
  | token : r.head ∈ b.terminals → Addition b r (b, some (.headIsToken r.head))
  /-- The head is reserved. -/
  | reserved : r.head ∉ b.terminals → IsReserved r.head → Addition b r (b, some (.reservedHead r.head))
  /-- The first faulty symbol of the body stops the reading: only the literals before it are declared. -/
  | faulty {before : List String} {s : String} {after : List String} :
      r.head ∉ b.terminals → ¬IsReserved r.head → r.body = before ++ s :: after → (∀ s' ∈ before, ¬IsFaulty s') →
      IsFaulty s → Addition b r
        ({ b with terminals := b.terminals ++ newLiterals b.terminals before }, some (faultOf r.head s))
  /-- No symbol is faulty: the literals are declared, and one rule is appended. -/
  | added : r.head ∉ b.terminals → ¬IsReserved r.head → (∀ s ∈ r.body, ¬IsFaulty s) → Addition b r
      ({ b with
          terminals := b.terminals ++ newLiterals b.terminals r.body
          rules := b.rules ++ [{ r with body := r.body.map meaning }] }, none)

/-- **Adding a rule changes nothing but what one of these cases says**, whether its body is given as a list or as one
text. -/
theorem addition_add (b : Builder α) (head : String) (action : Option α) :
    (∀ body, Addition b ⟨head, body, action⟩ (b.add head body action)) ∧
      ∀ text, Addition b ⟨head, Text.words text, action⟩ (b.addText head text action) := by
  have hadd (body : List String) : Addition b ⟨head, body, action⟩ (b.add head body action) := by
    rw [add]
    by_cases htoken : head ∈ b.terminals
    · rw [if_pos htoken]
      exact .token htoken
    by_cases hreserved : IsReserved head
    · rw [if_neg htoken, if_pos hreserved]
      exact .reserved htoken hreserved
    rw [if_neg htoken, if_neg hreserved]
    cases hfault : body.find? fun s => IsFaulty s with
    | none =>
      have hbody : ∀ s ∈ body, ¬IsFaulty s := by simpa using hfault
      rw [readSymbols_eq_ok hbody]
      exact .added htoken hreserved hbody
    | some s =>
      obtain ⟨hs, before, after, rfl, hbefore⟩ := List.find?_eq_some_iff_append.mp hfault
      have hs : IsFaulty s := of_decide_eq_true hs
      have hbefore : ∀ s' ∈ before, ¬IsFaulty s' := by simpa using hbefore
      rw [readSymbols_append hbefore, readSymbols_cons_of_isFaulty hs]
      exact .faulty htoken hreserved rfl hbefore hs
  exact ⟨hadd, fun text => hadd (Text.words text)⟩

/-- The second `=` is not declared again, and what comes behind the lone quote is not read. -/
example : (Builder.mk (α := Nat) ["b"] [] none).add "E" ["'='", "x", "'b'", "\"+\"", "'='", "'", "'-'"] none =
    (⟨["b", "=", "+"], [], none⟩, some (.badLiteral "'" "E")) := rfl

end Builder

end CanonicalLR
