import CanonicalLR.Parse.Token
import CanonicalLR.Production

/-!
# Parse trees

A tree is a token, or a production with the trees of the symbols of its body. The place of a token may be empty.
-/

namespace CanonicalLR

/-- A parse tree over productions with payloads in `α` and tokens with values in `τ`. -/
inductive Tree (α τ : Type) where
  | leaf (token : Option (Token τ))
  | node (production : Production α) (children : List (Tree α τ))

variable {α τ : Type}

/-- The text of a leaf: what its token is shown by. -/
def leafText : Option (Token τ) → String
  | none => Scalar.nothing.plainForm
  | some token => token.shown.plainForm

/-- Puts the name of a head and the texts of its children in parentheses. -/
def nodeText (head : NonTerminal) (children : List String) : String :=
  let inner := " ".intercalate children
  if inner.isEmpty then s!"({head.name})" else s!"({head.name} {inner})"

mutual

/-- The tokens of a tree, from left to right. -/
def Tree.leaves : Tree α τ → List (Option (Token τ))
  | .leaf token => [token]
  | .node _ children => forestLeaves children

/-- The tokens of trees, from left to right. -/
def forestLeaves : List (Tree α τ) → List (Option (Token τ))
  | [] => []
  | t :: ts => t.leaves ++ forestLeaves ts

end

mutual

/-- The numbers of the productions of a tree, those of children before those of their parent. -/
def Tree.reductions : Tree α τ → List Nat
  | .leaf _ => []
  | .node p children => forestReductions children ++ [p.number]

/-- The numbers of the productions of trees, from left to right. -/
def forestReductions : List (Tree α τ) → List Nat
  | [] => []
  | t :: ts => t.reductions ++ forestReductions ts

end

mutual

/-- The text of a tree: a node is its head and its children in parentheses. -/
def Tree.text : Tree α τ → String
  | .leaf token => leafText token
  | .node p children => nodeText p.head (forestTexts children)

/-- The texts of trees. -/
def forestTexts : List (Tree α τ) → List String
  | [] => []
  | t :: ts => t.text :: forestTexts ts

end

end CanonicalLR
