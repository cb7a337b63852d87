import CanonicalLR.SortedSet
import CanonicalLR.Value

/-!
# Grammar symbols

A symbol is a terminal or a non-terminal with a name that is not empty. Symbols are ordered with all terminals ahead
of all non-terminals, then by name, code point by code point. Two names are reserved: that of the end marker and that
of the head of the production that every grammar is augmented with.
-/

namespace CanonicalLR

/-- A terminal: the name of a kind of token. -/
structure Terminal where
  name : String
  name_ne : name ≠ "" := by decide
deriving DecidableEq

/-- A non-terminal: a symbol that rules define. -/
structure NonTerminal where
  name : String
  name_ne : name ≠ "" := by decide
deriving DecidableEq

/-- A grammar symbol. A terminal and a non-terminal of one name are different symbols. -/
inductive Symbol where
  | terminal (t : Terminal)
  | nonterminal (n : NonTerminal)
deriving DecidableEq

/-- The two kinds of symbols. -/
inductive SymbolKind where
  | terminal
  | nonterminal
deriving DecidableEq

/-- The name of a kind of symbols in messages. -/
def SymbolKind.label : SymbolKind → String
  | .terminal => "Terminal"
  | .nonterminal => "NonTerminal"

instance : Coe Terminal Symbol := ⟨.terminal⟩
instance : Coe NonTerminal Symbol := ⟨.nonterminal⟩

theorem Terminal.eq_of_name_eq {t u : Terminal} (h : t.name = u.name) : t = u := by
  cases t
  cases u
  simpa using h

namespace Symbol

/-- The name of a symbol. -/
def name : Symbol → String
  | terminal t => t.name
  | nonterminal n => n.name

/-- The kind of a symbol. -/
def kind : Symbol → SymbolKind
  | terminal _ => .terminal
  | nonterminal _ => .nonterminal

/-- Whether a symbol is a terminal. -/
def isTerminal : Symbol → Bool
  | terminal _ => true
  | nonterminal _ => false

/-- The symbol as a terminal. -/
def terminal? : Symbol → Option Terminal
  | terminal t => some t
  | nonterminal _ => none

/-- The symbol as a non-terminal. -/
def nonterminal? : Symbol → Option NonTerminal
  | terminal _ => none
  | nonterminal n => some n

/-- The form of a symbol in messages: its kind and its quoted name. -/
def debugForm (s : Symbol) : String := s!"{s.kind.label}({Text.quote s.name})"

/-- Terminals rank ahead of non-terminals. -/
def rank : Symbol → Nat
  | terminal _ => 0
  | nonterminal _ => 1

theorem eq_of_rank_of_name {a b : Symbol} (hr : a.rank = b.rank) (hn : a.name = b.name) : a = b := by
  cases a <;> cases b <;> simp_all [rank, name] <;> rename_i x y <;> cases x <;> cases y <;> simp_all

end Symbol

/-! ## Order -/

instance : Ord Terminal := ⟨compareOn Terminal.name⟩
instance : Ord NonTerminal := ⟨compareOn NonTerminal.name⟩
instance : Ord Symbol := ⟨compareLex (compareOn Symbol.rank) (compareOn Symbol.name)⟩

instance : Std.TransOrd Terminal := inferInstanceAs (Std.TransCmp (compareOn Terminal.name))
instance : Std.TransOrd NonTerminal := inferInstanceAs (Std.TransCmp (compareOn NonTerminal.name))
instance : Std.TransOrd Symbol :=
  inferInstanceAs (Std.TransCmp (compareLex (compareOn Symbol.rank) (compareOn Symbol.name)))

instance : Std.LawfulEqOrd Terminal where
  compare_self := Std.ReflCmp.compare_self
  eq_of_compare {a b} h := by
    have hn : a.name = b.name := Std.LawfulEqOrd.eq_of_compare h
    cases a
    cases b
    simp_all

instance : Std.LawfulEqOrd NonTerminal where
  compare_self := Std.ReflCmp.compare_self
  eq_of_compare {a b} h := by
    have hn : a.name = b.name := Std.LawfulEqOrd.eq_of_compare h
    cases a
    cases b
    simp_all

instance : Std.LawfulEqOrd Symbol where
  compare_self := Std.ReflCmp.compare_self
  eq_of_compare {a b} h := by
    obtain ⟨hr, hn⟩ := compareLex_eq_eq.mp h
    exact Symbol.eq_of_rank_of_name (Std.LawfulEqOrd.eq_of_compare hr) (Std.LawfulEqOrd.eq_of_compare hn)

/-! ## Making symbols -/

/-- Why something that was asked of a symbol is refused. -/
inductive SymbolError where
  /-- A name has to be a text that is not empty. -/
  | badName (given : Value)
  /-- A symbol has to be of one of the two kinds. -/
  | noKind
  /-- The name of a symbol never changes. -/
  | immutable (kind : SymbolKind)
deriving DecidableEq

/-- The wording of a refusal. -/
def SymbolError.message : SymbolError → String
  | badName given => s!"Symbol name must be a non-empty string, not {given.debugForm}."
  | noKind => "Symbol can't be instantiated directly; use Terminal or NonTerminal."
  | immutable kind => s!"{kind.label} is immutable."

/-- The terminal of a name. -/
def Terminal.ofName (name : String) : Except SymbolError Terminal :=
  if h : name = "" then .error (.badName (.plain (.text name))) else .ok ⟨name, h⟩

/-- The non-terminal of a name. -/
def NonTerminal.ofName (name : String) : Except SymbolError NonTerminal :=
  if h : name = "" then .error (.badName (.plain (.text name))) else .ok ⟨name, h⟩

/-- The symbol of a kind and a name. -/
def Symbol.ofName (kind : SymbolKind) (name : String) : Except SymbolError Symbol :=
  match kind with
  | .terminal => Symbol.terminal <$> Terminal.ofName name
  | .nonterminal => Symbol.nonterminal <$> NonTerminal.ofName name

/-- The symbol that a value names. A symbol without a kind is refused whatever its name. -/
def Symbol.ofValue (kind : Option SymbolKind) (given : Value) : Except SymbolError Symbol :=
  match kind, given with
  | none, _ => .error .noKind
  | some kind, .plain (.text name) => Symbol.ofName kind name
  | some _, given => .error (.badName given)

/-- Renaming a symbol is always refused. -/
def Symbol.rename (s : Symbol) (_ : Value) : Except SymbolError Symbol := .error (.immutable s.kind)

/-! ## Reserved names -/

/-- The marker of the end of input. -/
def endMark : Terminal := ⟨"$end", by decide⟩

/-- The head of the production that a grammar is augmented with. -/
def augmentedStart : NonTerminal := ⟨"S'", by decide⟩

/-- A reserved name is that of the end marker or of the augmented start. -/
def IsReserved (name : String) : Prop := name = endMark.name ∨ name = augmentedStart.name

instance (name : String) : Decidable (IsReserved name) :=
  inferInstanceAs (Decidable (name = endMark.name ∨ name = augmentedStart.name))

end CanonicalLR
