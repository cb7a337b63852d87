import CanonicalLR.Proofs.Grammar.Loop

/-!
# The analyses say what derivations do

What is found out about a grammar is told by the derivations of its texts alone, with no regard to how it is found.

- The nullable non-terminals derive the empty text, a first set holds the terminals that derivations of its
  non-terminal bring to the front, and both are told of any text of the grammar (`hasExactBeginnings`).
- The unreachable non-terminals are in no text that the start symbol derives, the underivable ones derive no text of
  terminals, and both stand in order of definition (`listsUseless`).

No use is made of the shape of a grammar: it may be left recursive, have cycles, or derive nothing at all.
-/

namespace CanonicalLR.Grammar

variable {α : Type} {g : Grammar α} {m n : NonTerminal} {t : Terminal} {ss : List Symbol}

/-! ## Heads -/

/-- The non-terminal is the augmented start or has rules. -/
def IsHead (g : Grammar α) (n : NonTerminal) : Prop := n = augmentedStart ∨ n ∈ g.nonterminals

/-- The heads of the productions are the augmented start and the non-terminals with rules. -/
theorem mem_headsOf_iff : n ∈ headsOf g.productions ↔ g.IsHead n := by
  rw [headsOf, mem_distinct, List.mem_map]
  constructor
  · rintro ⟨p, hp, rfl⟩
    rcases eq_augmented_or_mem_rules hp with rfl | hr
    · exact .inl rfl
    · exact .inr (Rulebook.mem_heads.mpr ⟨p.toRule, hr, rfl⟩)
  · rintro (rfl | hn)
    · exact ⟨g.augmented, augmented_mem, rfl⟩
    · obtain ⟨p, hp, rfl⟩ := exists_mem_tail_of_mem_nonterminals hn
      exact ⟨p, List.mem_of_mem_tail hp, rfl⟩

/-- The heads have a first set each. -/
theorem mem_keys_first_iff : n ∈ g.first.keys ↔ g.IsHead n := by
  rw [← mem_headsOf_iff, g.first_eq, firstOf, keys_of_heads]

/-! ## Beginnings -/

/-- A derivation of the text brings the terminal to the front. -/
def IsFirst (g : Grammar α) (ss : List Symbol) (t : Terminal) : Prop := ∃ xs, g.Derives ss (.terminal t :: xs)

theorem mem_firstSet_iff_isFirst : t ∈ g.firstSet n ↔ g.IsFirst [.nonterminal n] t := by
  rw [mem_firstSet_iff, IsFirst, ← mem_firstOfText_iff, mem_firstOfText_iff_beginsWith]
  have hl : leading g.nullable [.nonterminal n] = [.nonterminal n] := by
    simp [leading]
  simp [hl]

/-- There is an answer for every text of terminals and heads. -/
theorem firstOfText?_eq_some (h : ∀ n, .nonterminal n ∈ ss → g.IsHead n) :
    g.firstOfText? ss = some (g.firstOfText ss, g.derivesEmpty ss) := by
  refine if_pos (List.all_eq_true.mpr fun s hs => ?_)
  obtain ⟨xs, ys, rfl, -⟩ := exists_append_of_mem_leading hs
  cases s with
  | terminal t => rfl
  | nonterminal n =>
    have hn : n ∈ g.first.keys := mem_keys_first_iff.mpr (h n (List.mem_append_right xs List.mem_cons_self))
    simpa [Symbol.isTerminal, Symbol.isAmong] using hn

/-- The loops that collect what texts begin with end, and what they have collected is what derivations do. -/
structure HasExactBeginnings (g : Grammar α) : Prop where
  /-- The sweep that collects nullable non-terminals ends with them. -/
  nullable_endsAfter : ∃ k, Loop.EndsAfter (Sweep.turn (collectHead false) g.productions) k .empty g.nullable
  /-- The nullable non-terminals derive the empty text, and no others do. -/
  mem_nullable_iff : ∀ n, n ∈ g.nullable ↔ g.Derives [.nonterminal n] []
  /-- The sweep that collects first sets, by those that it has collected so far, ends with them. -/
  first_endsAfter : ∃ k,
    Loop.EndsAfter (Sweep.turn (collectFirst g.nullable) g.productions) k (noFirst g.productions) g.first
  /-- The augmented start and the non-terminals with rules have a first set, and no others do. -/
  isSome_first_iff : ∀ n, (g.first.get? n).isSome ↔ g.IsHead n
  /-- A first set holds the terminals that derivations of its non-terminal bring to the front. -/
  mem_first_iff : ∀ n ts, g.first.get? n = some ts → ∀ t, t ∈ ts ↔ g.IsFirst [.nonterminal n] t
  /-- The answer for a text is what its derivations bring to the front, and whether it derives the empty text. -/
  firstOfText : ∀ ss, (∀ n, .nonterminal n ∈ ss → g.IsHead n) → ∃ ts vanishes,
    g.firstOfText? ss = some (ts, vanishes) ∧ (∀ t, t ∈ ts ↔ g.IsFirst ss t) ∧ (vanishes = true ↔ g.Derives ss [])

/-- **What texts begin with, and which of them derive the empty text, is found exactly.** -/
theorem hasExactBeginnings (g : Grammar α) : g.HasExactBeginnings where
  nullable_endsAfter := exists_nullable_endsAfter
  mem_nullable_iff _ := mem_nullable_iff.trans (derives_iff_yields (w := [])).symm
  first_endsAfter := exists_first_endsAfter
  isSome_first_iff _ := Option.isSome_iff_exists.trans (OrderedMap.mem_keys_iff.symm.trans mem_keys_first_iff)
  mem_first_iff n ts hts t := by
    have hset : g.firstSet n = ts := by
      rw [firstSet, hts]
      rfl
    rw [← hset]
    exact mem_firstSet_iff_isFirst
  firstOfText _ hss := ⟨_, _, firstOfText?_eq_some hss, fun _ => mem_firstOfText_iff, derivesEmpty_iff_derives⟩

/-! ## Order of definition -/

/-- Some rule of a non-terminal stands before all rules of another. -/
def DefinedBefore (g : Grammar α) (m n : NonTerminal) : Prop :=
  ∃ p ∈ g.productions, p.head = m ∧ ∀ q ∈ g.productions, q.head = n → p.number < q.number

theorem DefinedBefore.ne (h : g.DefinedBefore m n) : m ≠ n := by
  rintro rfl
  obtain ⟨p, hp, hm, hlt⟩ := h
  exact Nat.lt_irrefl _ (hlt p hp hm)

/-- The rule at a place is the production with the next number. -/
theorem getElem?_heads_iff {i : Nat} :
    (g.rulebook.rules.map Rule.head)[i]? = some n ↔ ∃ p ∈ g.productions, p.number = i + 1 ∧ p.head = n := by
  rw [← tail_productions_map, List.map_map, List.getElem?_map, List.getElem?_tail, Option.map_eq_some_iff]
  constructor
  · rintro ⟨p, hp, hn⟩
    exact ⟨p, List.mem_of_getElem? hp, number_of_getElem? hp, hn⟩
  · rintro ⟨p, hp, hi, hn⟩
    exact ⟨p, hi ▸ getElem?_number hp, hn⟩

/-- The non-terminals of a grammar stand in order of definition. -/
theorem pairwise_nonterminals : g.nonterminals.Pairwise g.DefinedBefore := by
  refine pairwise_distinct.imp_of_mem fun {m n} _ hn ⟨i, hi, hlt⟩ => ?_
  obtain ⟨p, hp, hpi, hpm⟩ := getElem?_heads_iff.mp hi
  refine ⟨p, hp, hpm, fun q hq hqn => ?_⟩
  have hpos : q.number ≠ 0 := by
    intro h
    obtain ⟨r, hr, hrn⟩ := Rulebook.mem_heads.mp hn
    rw [(number_eq_zero_iff hq).mp h] at hqn
    exact head_ne_augmentedStart_of_mem_rules hr (hrn.trans hqn.symm)
  have hj := hlt (q.number - 1) (getElem?_heads_iff.mpr ⟨q, hq, by omega, hqn⟩)
  omega

/-! ## Useless non-terminals -/

/-- A list holds the non-terminals of a grammar with a property, each once and in order of definition. -/
structure Lists (g : Grammar α) (ns : List NonTerminal) (P : NonTerminal → Prop) : Prop where
  mem_iff : ∀ n, n ∈ ns ↔ n ∈ g.nonterminals ∧ P n
  nodup : ns.Nodup
  ordered : ns.Pairwise g.DefinedBefore

/-- A test of the non-terminals, one after the other, lists those with the property that it decides. -/
theorem lists_filter {P : NonTerminal → Prop} {test : NonTerminal → Bool} (h : ∀ n, test n = true ↔ P n) :
    g.Lists (g.nonterminals.filter test) P where
  mem_iff n := by
    rw [List.mem_filter]
    exact and_congr_right fun _ => h n
  nodup := (pairwise_nonterminals.filter test).imp DefinedBefore.ne
  ordered := pairwise_nonterminals.filter test

/-- The loops that tell which non-terminals are of use end, and the others are listed by what derivations do. -/
structure ListsUseless (g : Grammar α) : Prop where
  /-- The stack of the search for what the start symbol leads to runs empty, and what it has not seen is unreachable. -/
  unreachable_endsAfter : ∃ k w, Loop.EndsAfter (WorkList.turn .stack (mentions g.productions)) k
    (.start .stack [g.start]) w ∧ g.unreachable = g.nonterminals.filter (· ∉ w.seen)
  /-- The unreachable non-terminals are in no text that the start symbol derives. -/
  unreachable : g.Lists g.unreachable fun n => ∀ u, g.Derives [.nonterminal g.start] u → .nonterminal n ∉ u
  /-- The sweep that collects productive non-terminals ends, and what it has not collected is underivable. -/
  underivable_endsAfter : ∃ k known, Loop.EndsAfter (Sweep.turn (collectHead true) g.productions.tail) k .empty known ∧
    g.underivable = g.nonterminals.filter (· ∉ known)
  /-- The underivable non-terminals derive no text of terminals, not even the empty one. -/
  underivable : g.Lists g.underivable fun n =>
    ∀ w : List Terminal, ¬g.Derives [.nonterminal n] (w.map Symbol.terminal)

/-- **The useless non-terminals are listed exactly.** -/
theorem listsUseless (g : Grammar α) : g.ListsUseless where
  unreachable_endsAfter := by
    obtain ⟨k, -, w, h⟩ := exists_mentions_endsAfter (g := g) .stack
    exact ⟨k, w, h⟩
  unreachable := lists_filter fun n => by
    rw [decide_eq_true_iff, mem_reachableFrom_iff, isReachable_iff_derives]
    push Not
    rfl
  underivable_endsAfter := exists_underivable_endsAfter
  underivable := lists_filter fun n => by
    rw [decide_eq_true_iff, mem_productiveOf_iff]
    push Not
    exact forall_congr' fun w => not_congr derives_iff_yields.symm

end CanonicalLR.Grammar
