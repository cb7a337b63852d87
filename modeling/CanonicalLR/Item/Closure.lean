import CanonicalLR.Item.Set

/-!
# Closure and goto

An item with a non-terminal after the dot calls for the productions of that non-terminal, with the lookaheads that may
follow it there (`Item.expansion`). The closure of items is all that they call for, one after the other; goto moves the
dot over a symbol and takes the closure.
-/

namespace CanonicalLR

variable {α : Type} (g : Grammar α)

/-- What may follow the symbol after the dot: the terminals that the rest of the body may begin with, and the item's
own lookahead if the rest derives the empty text. -/
def Item.lookaheads (it : Item) : List Key :=
  (g.firstOfText (it.rest g)).toList.map .terminal ++ if g.derivesEmpty (it.rest g) then [it.lookahead] else []

/-- The items that an item calls for. -/
def Item.expansion (it : Item) : List Item :=
  match it.next g with
  | some (.nonterminal n) =>
    (g.productionsFor n).flatMap fun p => (it.lookaheads g).map fun a => ⟨p.number, 0, a⟩
  | _ => []

/-- A bound on the number of items in the closure of items: the items themselves, and each production with each
terminal of the grammar and each of their lookaheads. -/
def closureBound (items : List Item) : Nat := items.length + g.size * (g.terminals.length + items.length)

/-- The closure of a list of items. -/
def closure (items : List Item) : ItemSet := .ofList (Search.reach (Item.expansion g) (closureBound g items) items)

/-- The items with `x` after the dot, moved over it, and all that they call for. -/
def goto (items : List Item) (x : Symbol) : ItemSet :=
  closure g ((items.filter fun it => it.next g = some x).map Item.advance)

/-- The closure of items that all lie within the grammar. -/
def closure? (items : List Item) : Option ItemSet :=
  if items.all (·.isWithin g) then some (closure g items) else none

/-- The goto of items that all lie within the grammar. -/
def goto? (items : List Item) (x : Symbol) : Option ItemSet :=
  if items.all (·.isWithin g) then some (goto g items x) else none

/-- The item that parsing starts with. -/
def initialItem : Item := ⟨0, 0, endMark⟩

end CanonicalLR
