import CanonicalLR.Value

/-!
# Tokens

A parser looks a token up by the text that it is or, if it is no text, by its type. In trees and messages a token is
shown by its type or, if it has none, as it is itself. So what a token is read as and what it is shown as are not the
same: a text may have a type as well, and it may be written otherwise than it is read.

What else a token carries is kept and never looked at. A stream of tokens may also hold nothing in place of a token.
-/

namespace CanonicalLR

/-- What a value is read as where the name of a terminal is expected. -/
inductive Reading where
  /-- A text, which may be a name. -/
  | text (name : String)
  /-- A value that is no text, and so no name. -/
  | other
  /-- A value that cannot be looked up. -/
  | structured
deriving DecidableEq

/-- What is seen of a value: what it is read as, and how it is written. An ordinary text is written as it is read. The
text that is a member of an enumeration may be written by the name of the member. -/
structure Look where
  reading : Reading
  /-- The value as it stands in trees. -/
  plainForm : String
  /-- The value as it stands in messages. -/
  debugForm : String
deriving DecidableEq

namespace Look

/-- The look of an ordinary value. -/
def ofValue (v : Value) : Look where
  reading :=
    match v with
    | .plain (.text s) => .text s
    | .plain _ => .other
    | _ => .structured
  plainForm := v.plainForm
  debugForm := v.debugForm

/-- The look of an ordinary text. -/
def ofText (s : String) : Look := .ofValue (.plain (.text s))

end Look

/-- A token: what is seen of it and of its type, and the value that it is. -/
structure Token (τ : Type) where
  itself : Look
  /-- The type, if there is one. -/
  type? : Option Look
  value : τ

namespace Token

variable {τ : Type}

/-- What a token is looked up by: itself if it is a text, and its type if not. -/
def label? (token : Token τ) : Option Look :=
  match token.itself.reading with
  | .text _ => some token.itself
  | _ => token.type?

/-- What a token is read as. -/
def reading? (token : Token τ) : Option Reading := token.label?.map Look.reading

/-- The name of a token. -/
def name? (token : Token τ) : Option String :=
  match token.reading? with
  | some (.text name) => some name
  | _ => none

/-- What a token is shown by: its type if it has one, and itself if not. -/
def shown (token : Token τ) : Look := token.type?.getD token.itself

/-- The token that is just a name. -/
def ofName (name : String) : Token String := ⟨.ofText name, none, name⟩

theorem reading?_ofName {name : String} : (ofName name).reading? = some (.text name) := rfl

theorem name?_eq_some_iff {token : Token τ} {name : String} :
    token.name? = some name ↔ token.reading? = some (.text name) := by
  unfold name?
  split
  · rename_i h
    simp [h]
  · rename_i h
    exact iff_of_false nofun (h name)

end Token

end CanonicalLR
