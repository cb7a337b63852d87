import CanonicalLR.Automaton.Canonical
import CanonicalLR.Proofs.Grammar.Analysis

/-!
# Closure and goto hold what the items call for

The closure of any items holds exactly what the search along `Item.expansion` reaches (`mem_closure_iff`): the bound on
the search is never met. The items of a production with a dot in its body and a terminal are written `p.item k t`; they
are the proper items (`mem_properItems_iff`), what they call for is proper again, and `mem_expansion_item_iff` says what
that is. A state that is reached from the initial item holds proper items only.
-/

namespace CanonicalLR

variable {α : Type}

/-- The item of a production with the dot at a place of its body. -/
def Production.item (p : Production α) (k : Nat) (t : Terminal) : Item := ⟨p.number, k, .terminal t⟩

variable {g : Grammar α}

namespace Grammar

/-- A terminal may follow a symbol if the rest of the body may begin with it, or if the rest derives the empty text and
the terminal is the lookahead. -/
def MayFollow (g : Grammar α) (rest : List Symbol) (lookahead t : Terminal) : Prop :=
  t ∈ g.firstOfText rest ∨ g.Yields rest [] ∧ t = lookahead

/-- What a text yields decides, with the terminals behind it, which terminal comes next. -/
theorem mayFollow_of_yields {rest : List Symbol} {v w : List Terminal} (h : g.Yields rest v) :
    g.MayFollow rest (w.headD endMark) ((v ++ w).headD endMark) := by
  cases v with
  | nil => exact .inr ⟨h, rfl⟩
  | cons t v => exact .inl (mem_firstOfText_of_yields h)

/-- What may follow a text also follows when the text has symbols in front that derive the empty text. -/
theorem MayFollow.append {xs ys : List Symbol} {s t : Terminal} (hx : g.Yields xs []) (h : g.MayFollow ys s t) :
    g.MayFollow (xs ++ ys) s t := by
  rcases h with ht | ⟨hy, rfl⟩
  · refine .inl (mem_firstOfText_iff.mpr ?_)
    obtain ⟨zs, hz⟩ := mem_firstOfText_iff.mp ht
    exact ⟨zs, (derives_iff_yields.mpr hx).append hz⟩
  · exact .inr ⟨hx.append hy, rfl⟩

/-- What the first symbol of a text begins with may follow. -/
theorem mayFollow_of_beginsWith {x : Symbol} {xs : List Symbol} {s t : Terminal} (h : g.BeginsWith x (.terminal t)) :
    g.MayFollow (x :: xs) s t :=
  .inl (mem_firstOfText_iff_beginsWith.mpr ⟨x, mem_leading_cons _ _, h⟩)

theorem mem_terminals_of_mem_firstOfText {ss : List Symbol} (hss : ∀ s ∈ ss, Defined g.vocabulary g.rulebook s)
    {t : Terminal} (ht : t ∈ g.firstOfText ss) : t ∈ g.terminals := by
  obtain ⟨xs, hd⟩ := mem_firstOfText_iff.mp ht
  have h : Defined g.vocabulary g.rulebook (.terminal t) := hd.defined hss _ List.mem_cons_self
  exact List.mem_append_left _ h

end Grammar

open Grammar

namespace Item

theorem mem_expansion_iff {it it' : Item} :
    it' ∈ it.expansion g ↔ ∃ n, it.next g = some (.nonterminal n) ∧
      ∃ q ∈ g.productions, q.head = n ∧ ∃ a ∈ it.lookaheads g, it' = ⟨q.number, 0, a⟩ := by
  unfold expansion
  split
  · rename_i n hn
    simp only [List.mem_flatMap, mem_productionsFor, List.mem_map, hn, Option.some.injEq, Symbol.nonterminal.injEq]
    constructor
    · rintro ⟨q, ⟨hq, hh⟩, a, ha, rfl⟩
      exact ⟨n, rfl, q, hq, hh, a, ha, rfl⟩
    · rintro ⟨m, rfl, q, hq, hh, a, ha, rfl⟩
      exact ⟨q, ⟨hq, hh⟩, a, ha, rfl⟩
  · rename_i hn
    refine ⟨fun h => absurd h List.not_mem_nil, ?_⟩
    rintro ⟨n, h, -⟩
    exact absurd h (hn n)

theorem mem_lookaheads_iff {it : Item} {a : Key} :
    a ∈ it.lookaheads g ↔ (∃ t ∈ g.firstOfText (it.rest g), a = .terminal t) ∨
      g.Yields (it.rest g) [] ∧ a = it.lookahead := by
  simp only [lookaheads, List.mem_append, List.mem_map, SortedSet.mem_def]
  rw [← derivesEmpty_iff]
  refine or_congr ?_ ?_
  · simp [eq_comm]
  · split <;> simp_all

theorem defined_of_mem_rest {it : Item} {s : Symbol} (hs : s ∈ it.rest g) : Defined g.vocabulary g.rulebook s := by
  have hb : s ∈ it.body g := List.mem_of_mem_drop hs
  unfold body at hb
  cases hp : g.production? it.production with
  | none => simp [hp] at hb
  | some p =>
    simp only [hp, Option.map_some, Option.getD_some] at hb
    have hm : p ∈ g.productions := by
      unfold production? Position.get? at hp
      obtain ⟨k, _, hk⟩ := Option.bind_eq_some_iff.mp hp
      exact List.mem_of_getElem? hk
    exact defined_of_mem_body hm hb

end Item

/-! ## Closures -/

theorem covers_expansion (items : List Item) : Search.Covers (Item.expansion g)
    (items ++ g.productions.flatMap fun p =>
      (g.terminals.map Key.terminal ++ items.map Item.lookahead).map fun a => ⟨p.number, 0, a⟩)
    items (closureBound g items) where
  starts_mem _ hx := List.mem_append_left _ hx
  next_mem x hx y hy := by
    obtain ⟨n, _, q, hq, _, a, ha, rfl⟩ := Item.mem_expansion_iff.mp hy
    refine List.mem_append_right _ (List.mem_flatMap.mpr ⟨q, hq, List.mem_map.mpr ⟨a, ?_, rfl⟩⟩)
    rcases Item.mem_lookaheads_iff.mp ha with ⟨t, ht, rfl⟩ | ⟨_, rfl⟩
    · have := mem_terminals_of_mem_firstOfText (fun s hs => Item.defined_of_mem_rest hs) ht
      exact List.mem_append_left _ (List.mem_map_of_mem this)
    · -- the lookahead of a node is a terminal or that of one of the given items
      rcases List.mem_append.mp hx with hx | hx
      · exact List.mem_append_right _ (List.mem_map_of_mem hx)
      · obtain ⟨p, _, hx⟩ := List.mem_flatMap.mp hx
        obtain ⟨b, hb, rfl⟩ := List.mem_map.mp hx
        exact hb
  length_le := by
    have h : ∀ ps : List (Production α), (ps.flatMap fun p =>
        (g.terminals.map Key.terminal ++ items.map Item.lookahead).map fun a => (⟨p.number, 0, a⟩ : Item)).length =
        ps.length * (g.terminals.length + items.length) := by
      intro ps
      induction ps with
      | nil => simp
      | cons p ps ih =>
        rw [List.flatMap_cons, List.length_append, ih, List.length_cons, Nat.succ_mul]
        simp only [List.length_map, List.length_append]
        omega
    refine Nat.le_of_eq ?_
    rw [List.length_append, h, closureBound, size]

/-- **The closure holds exactly what the items call for, one after the other.** -/
theorem mem_closure_iff {items : List Item} {it : Item} :
    it ∈ closure g items ↔ Search.Reached (Item.expansion g) items it := by
  rw [closure, SortedSet.mem_ofList]
  exact Search.mem_reach_iff (covers_expansion items)

theorem mem_closure_of_mem {items : List Item} {it : Item} (h : it ∈ items) : it ∈ closure g items :=
  mem_closure_iff.mpr (.start h)

theorem mem_closure_of_mem_expansion {items : List Item} {it it' : Item} (h : it ∈ closure g items)
    (h' : it' ∈ it.expansion g) : it' ∈ closure g items :=
  mem_closure_iff.mpr ((mem_closure_iff.mp h).step h')

/-- What holds of the items, and of all that an item with it calls for, holds in the closure. -/
theorem closure_induction {items : List Item} {P : Item → Prop} (hstart : ∀ it ∈ items, P it)
    (hstep : ∀ it, P it → ∀ it' ∈ it.expansion g, P it') : ∀ it ∈ closure g items, P it := by
  intro it hit
  have h := mem_closure_iff.mp hit
  induction h with
  | start h => exact hstart _ h
  | step hx hy ih => exact hstep _ (ih (mem_closure_iff.mpr hx)) _ hy

theorem advance_mem_goto {s : ItemSet} {x : Symbol} {it : Item} (h : it ∈ s) (hx : it.next g = some x) :
    it.advance ∈ goto g s.toList x :=
  mem_closure_of_mem (List.mem_map_of_mem (List.mem_filter.mpr ⟨h, by simpa using hx⟩))

/-- What holds of the items moved over `x`, and of all that an item with it calls for, holds in the goto. -/
theorem goto_induction {s : ItemSet} {x : Symbol} {P : Item → Prop}
    (hstart : ∀ it ∈ s, it.next g = some x → P it.advance)
    (hstep : ∀ it, P it → ∀ it' ∈ it.expansion g, P it') : ∀ it ∈ goto g s.toList x, P it := by
  refine closure_induction ?_ hstep
  intro it hit
  obtain ⟨source, hs, rfl⟩ := List.mem_map.mp hit
  obtain ⟨hm, hx⟩ := List.mem_filter.mp hs
  exact hstart source hm (by simpa using hx)

theorem mem_nextSymbols_iff {s : ItemSet} {x : Symbol} : x ∈ s.nextSymbols g ↔ ∃ it ∈ s, it.next g = some x := by
  simp [ItemSet.nextSymbols, SortedSet.mem_def]

/-- A goto over a symbol is empty just if no item has the symbol after its dot. -/
theorem exists_mem_goto_iff {s : ItemSet} {x : Symbol} :
    (∃ it, it ∈ goto g s.toList x) ↔ x ∈ s.nextSymbols g := by
  rw [mem_nextSymbols_iff]
  constructor
  · rintro ⟨it, hit⟩
    exact goto_induction (P := fun _ => ∃ it ∈ s, it.next g = some x) (fun it h hx => ⟨it, h, hx⟩)
      (fun _ h _ _ => h) it hit
  · rintro ⟨it, h, hx⟩
    exact ⟨it.advance, advance_mem_goto h hx⟩

/-! ## Proper items -/

section Proper

variable {p : Production α} {k : Nat} {t : Terminal}

theorem advance_item : (p.item k t).advance = p.item (k + 1) t := rfl

theorem advance_item_length {a : List Symbol} {x : Symbol} :
    (p.item a.length t).advance = p.item (a ++ [x]).length t := by
  rw [advance_item, List.length_append]
  rfl

theorem item_inj {q : Production α} {j : Nat} {u : Terminal} (hp : p ∈ g.productions) (hq : q ∈ g.productions)
    (h : p.item k t = q.item j u) : p = q ∧ k = j ∧ t = u := by
  simp only [Production.item, Item.mk.injEq, Key.symbol.injEq, Symbol.terminal.injEq] at h
  obtain ⟨hn, hk, ht⟩ := h
  exact ⟨eq_of_number_eq hp hq (by omega), by omega, ht⟩

theorem mem_properItems_iff {it : Item} :
    it ∈ properItems g ↔ ∃ p ∈ g.productions, ∃ k ≤ p.body.length, ∃ t ∈ g.terminals, it = p.item k t := by
  simp only [properItems, List.mem_flatMap, List.mem_range, List.mem_map, Nat.lt_succ_iff]
  constructor
  · rintro ⟨p, hp, k, hk, t, ht, rfl⟩
    exact ⟨p, hp, k, hk, t, ht, rfl⟩
  · rintro ⟨p, hp, k, hk, t, ht, rfl⟩
    exact ⟨p, hp, k, hk, t, ht, rfl⟩

variable (hp : p ∈ g.productions)
include hp

theorem body_item : (p.item k t).body g = p.body := by
  simp only [Item.body, Production.item, production?_number hp]
  rfl

theorem next_item : (p.item k t).next g = p.body[k]? := by
  rw [Item.next, body_item hp]
  exact Position.get?_natCast

/-- Between two parts of the body, the symbol after the dot is the first of the second part. -/
theorem next_item_length {a b : List Symbol} (hb : p.body = a ++ b) : (p.item a.length t).next g = b.head? := by
  rw [next_item hp, hb, ← List.head?_drop, List.drop_left]

theorem next_item_of_body {a b : List Symbol} {x : Symbol} (hb : p.body = a ++ x :: b) :
    (p.item a.length t).next g = some x := by
  rw [next_item_length hp hb]
  rfl

/-- A symbol of a body stands after a dot if the item with the dot before it is there. -/
theorem mem_nextSymbols_of_item_mem {s : ItemSet} {a b : List Symbol} {x : Symbol} (hb : p.body = a ++ x :: b)
    (h : p.item a.length t ∈ s) : x ∈ s.nextSymbols g :=
  mem_nextSymbols_iff.mpr ⟨_, h, next_item_of_body hp hb⟩

theorem rest_item : (p.item k t).rest g = p.body.drop (k + 1) := by
  rw [Item.rest, body_item hp]
  have hd : (p.item k t).dot + 1 = ((k + 1 : Nat) : Int) := rfl
  rw [hd, Position.suffixFrom, Position.gap_natCast]
  rcases Nat.le_total (k + 1) p.body.length with h | h
  · rw [Nat.min_eq_left h]
  · rw [Nat.min_eq_right h, List.drop_of_length_le (Nat.le_refl _), List.drop_of_length_le h]

/-- What an item calls for: the productions of the non-terminal after its dot, with the terminals that may follow. -/
theorem mem_expansion_item_iff {it : Item} :
    it ∈ (p.item k t).expansion g ↔ ∃ q ∈ g.productions, p.body[k]? = some (.nonterminal q.head) ∧
      ∃ u, g.MayFollow (p.body.drop (k + 1)) t u ∧ it = q.item 0 u := by
  rw [Item.mem_expansion_iff, next_item hp]
  constructor
  · rintro ⟨n, hn, q, hq, rfl, a, ha, rfl⟩
    rw [Item.mem_lookaheads_iff, rest_item hp] at ha
    rcases ha with ⟨u, hu, rfl⟩ | ⟨he, rfl⟩
    · exact ⟨q, hq, hn, u, .inl hu, rfl⟩
    · exact ⟨q, hq, hn, t, .inr ⟨he, rfl⟩, rfl⟩
  · rintro ⟨q, hq, hn, u, hu, rfl⟩
    refine ⟨q.head, hn, q, hq, rfl, .terminal u, ?_, rfl⟩
    rw [Item.mem_lookaheads_iff, rest_item hp]
    rcases hu with hu | ⟨he, rfl⟩
    · exact .inl ⟨u, hu, rfl⟩
    · exact .inr ⟨he, rfl⟩

end Proper

theorem properItems_of_expansion {it it' : Item} (h : it ∈ properItems g) (h' : it' ∈ it.expansion g) :
    it' ∈ properItems g := by
  obtain ⟨p, hp, k, _, t, ht, rfl⟩ := mem_properItems_iff.mp h
  obtain ⟨q, hq, _, u, hu, rfl⟩ := (mem_expansion_item_iff hp).mp h'
  have hut : u ∈ g.terminals := by
    rcases hu with hu | ⟨_, rfl⟩
    · exact mem_terminals_of_mem_firstOfText (fun s hs => defined_of_mem_body hp (List.mem_of_mem_drop hs)) hu
    · exact ht
  exact mem_properItems_iff.mpr ⟨q, hq, 0, Nat.zero_le _, u, hut, rfl⟩

theorem properItems_of_advance {it : Item} {x : Symbol} (h : it ∈ properItems g) (hx : it.next g = some x) :
    it.advance ∈ properItems g := by
  obtain ⟨p, hp, k, _, t, ht, rfl⟩ := mem_properItems_iff.mp h
  rw [next_item hp] at hx
  have hk := (List.getElem?_eq_some_iff.mp hx).1
  exact mem_properItems_iff.mpr ⟨p, hp, k + 1, hk, t, ht, advance_item⟩

theorem initialItem_eq : initialItem = g.augmented.item 0 endMark := rfl

theorem initialItem_mem_properItems : initialItem ∈ properItems g :=
  mem_properItems_iff.mpr ⟨g.augmented, augmented_mem, 0, Nat.zero_le _, endMark, endMark_mem_terminals, rfl⟩

theorem properItems_of_mem_closure : ∀ it ∈ closure g [initialItem], it ∈ properItems g := by
  refine closure_induction ?_ fun it h it' h' => properItems_of_expansion h h'
  intro it hit
  rw [List.mem_singleton.mp hit]
  exact initialItem_mem_properItems

theorem properItems_of_mem_goto {s : ItemSet} (hs : ∀ it ∈ s, it ∈ properItems g) {x : Symbol} :
    ∀ it ∈ goto g s.toList x, it ∈ properItems g :=
  goto_induction (fun it hit hx => properItems_of_advance (hs it hit) hx)
    fun _ h _ h' => properItems_of_expansion h h'

end CanonicalLR
