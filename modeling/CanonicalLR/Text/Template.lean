import CanonicalLR.Value

/-!
# Message templates

A template is a text with directives: `%s` stands for the plain form of the next value, `%r` for its form in messages,
`%d` for a number and `%%` for a per cent sign. There have to be exactly as many values as directives take.
-/

namespace CanonicalLR.Text

/-- Writes the values into the template. There is no result if values are missing or left over, if `%d` meets a value
that is no number, or if a per cent sign starts no directive. -/
def fill : List Char → List Value → Option (List Char)
  | [], [] => some []
  | [], _ :: _ => none
  | '%' :: '%' :: cs, vs => (fill cs vs).map ('%' :: ·)
  | '%' :: 's' :: cs, v :: vs => (fill cs vs).map (v.plainForm.toList ++ ·)
  | '%' :: 'r' :: cs, v :: vs => (fill cs vs).map (v.debugForm.toList ++ ·)
  | '%' :: 'd' :: cs, v :: vs => do
    let n ← v.number?
    let rest ← fill cs vs
    return (toString n).toList ++ rest
  | '%' :: _, _ => none
  | c :: cs, vs => (fill cs vs).map (c :: ·)

/-- The text of a message. A message without values is taken as it stands, directives and all; with values it has to
be a text. -/
def message? : Value → List Value → Option String
  | message, [] => some message.plainForm
  | .plain (.text template), vs => (fill template.toList vs).map String.ofList
  | _, _ => none

end CanonicalLR.Text
