import CanonicalLR.Proofs.Grammar.Derivation
import CanonicalLR.Proofs.Grammar.Production

/-!
# The analyses of a grammar are exact

- The nullable non-terminals are those that derive the empty text (`mem_nullable_iff`), and a text is found to derive
  it just if it does (`derivesEmpty_iff`).
- The productive non-terminals are those that yield a text of terminals (`mem_productiveOf_iff`), so without
  underivable non-terminals every defined symbol yields one (`exists_yields_of_defined`).
- The terminals that a text may begin with are those that a derivation of it brings to the front
  (`mem_firstOfText_iff`). If all symbols of the text yield something, so does what follows that terminal
  (`exists_yields_cons`).
-/

namespace CanonicalLR

variable {α : Type}

namespace Grammar

variable {g : Grammar α}

/-! ## Least sets of non-terminals -/

/-- Whether a symbol is among the given non-terminals, or a terminal and terminals are admitted. -/
def admits (terminals : Bool) (known : List NonTerminal) (s : Symbol) : Bool :=
  s.isTerminal && terminals || s.isAmong known

theorem admits_false {known : List NonTerminal} : admits false known = fun s => s.isAmong known := by
  funext s
  simp [admits]

theorem admits_true {known : List NonTerminal} : admits true known = fun s => s.isTerminal || s.isAmong known := by
  funext s
  simp [admits]

/-- The least set of non-terminals with a body of admitted symbols. -/
def leastHeads (g : Grammar α) (terminals : Bool) : List NonTerminal :=
  saturate (headsOf g.productions) fun known n =>
    g.productions.any fun p => p.head = n && p.body.all (admits terminals known)

theorem nullableOf_eq : nullableOf g.productions = .ofList (g.leastHeads false) := by
  simp only [nullableOf, leastHeads, admits_false]

theorem productiveOf_eq : productiveOf g.productions = g.leastHeads true := by
  simp only [productiveOf, leastHeads, admits_true]

/-- A yield from admitted symbols is empty if no terminals are admitted. -/
def AdmittedYield (g : Grammar α) (terminals : Bool) (ss : List Symbol) : Prop :=
  ∃ w, g.Yields ss w ∧ (terminals = false → w = [])

/-- A text of symbols that each have an admitted yield has one. -/
theorem admittedYield_of_forall {terminals : Bool} {known : List NonTerminal}
    (hknown : ∀ n ∈ known, g.AdmittedYield terminals [.nonterminal n]) :
    ∀ {ss : List Symbol}, (∀ s ∈ ss, admits terminals known s = true) → g.AdmittedYield terminals ss
  | [], _ => ⟨[], .nil, fun _ => rfl⟩
  | s :: ss, h => by
    obtain ⟨w, hw, he⟩ := admittedYield_of_forall hknown fun s' hs' => h s' (List.mem_cons_of_mem _ hs')
    have hs := h s List.mem_cons_self
    cases s with
    | terminal t =>
      refine ⟨t :: w, .terminal hw, fun ht => ?_⟩
      simp [admits, ht, Symbol.isAmong] at hs
    | nonterminal n =>
      have hn : n ∈ known := by simpa [admits, Symbol.isTerminal, Symbol.isAmong] using hs
      obtain ⟨u, hu, hue⟩ := hknown n hn
      exact ⟨u ++ w, hu.append hw, fun ht => by rw [hue ht, he ht]; rfl⟩

/-- The symbols of a text with an admitted yield are admitted. -/
theorem admits_leastHeads_of_yields {terminals : Bool} {ss : List Symbol} {w : List Terminal} (h : g.Yields ss w)
    (hw : terminals = false → w = []) : ∀ s ∈ ss, admits terminals (g.leastHeads terminals) s = true := by
  induction h with
  | nil => simp
  | terminal _ ih =>
    have ht : terminals = true := by
      cases terminals with
      | true => rfl
      | false => exact absurd (hw rfl) (List.cons_ne_nil _ _)
    intro s hs
    rcases List.mem_cons.mp hs with rfl | hs
    · simp [admits, ht, Symbol.isTerminal]
    · exact ih (fun hf => by rw [ht] at hf; cases hf) s hs
  | @nonterminal p ss u w hp _ _ ihb ih =>
    have hb := ihb fun hf => (List.append_eq_nil_iff.mp (hw hf)).1
    intro s hs
    rcases List.mem_cons.mp hs with rfl | hs
    · have hm : p.head ∈ g.leastHeads terminals := by
        refine mem_saturate_of_admits (mem_distinct.mpr (List.mem_map_of_mem hp)) ?_
        refine List.any_eq_true.mpr ⟨p, hp, ?_⟩
        rw [Bool.and_eq_true]
        exact ⟨decide_eq_true rfl, List.all_eq_true.mpr hb⟩
      simp [admits, Symbol.isAmong, hm]
    · exact ih (fun hf => (List.append_eq_nil_iff.mp (hw hf)).2) s hs

/-- The least set holds the non-terminals with an admitted yield. -/
theorem mem_leastHeads_iff {terminals : Bool} {n : NonTerminal} :
    n ∈ g.leastHeads terminals ↔ g.AdmittedYield terminals [.nonterminal n] := by
  constructor
  · refine saturate_induction (P := fun n => g.AdmittedYield terminals [.nonterminal n]) ?_ n
    intro known hknown x _ hx
    obtain ⟨p, hp, hpx⟩ := List.any_eq_true.mp hx
    simp only [Bool.and_eq_true, decide_eq_true_eq, List.all_eq_true] at hpx
    obtain ⟨rfl, hb⟩ := hpx
    obtain ⟨w, hw, he⟩ := admittedYield_of_forall hknown hb
    exact ⟨w, .head hp hw, he⟩
  · rintro ⟨w, hw, he⟩
    have h := admits_leastHeads_of_yields hw he (.nonterminal n) List.mem_cons_self
    simpa [admits, Symbol.isTerminal, Symbol.isAmong] using h

/-! ## Deriving the empty text -/

/-- The nullable non-terminals are those that yield the empty text. -/
theorem mem_nullable_iff {n : NonTerminal} : n ∈ g.nullable ↔ g.Yields [.nonterminal n] [] := by
  rw [g.nullable_eq, nullableOf_eq, SortedSet.mem_ofList, mem_leastHeads_iff]
  exact ⟨fun ⟨w, hw, hn⟩ => hn rfl ▸ hw, fun h => ⟨[], h, fun _ => rfl⟩⟩

/-- A symbol is nullable just if it yields the empty text. -/
theorem isNullable_iff {s : Symbol} : s.isNullable g.nullable = true ↔ g.Yields [s] [] := by
  cases s with
  | terminal t =>
    refine ⟨fun h => ?_, fun h => ?_⟩
    · simp [Symbol.isNullable, Symbol.isAmong] at h
    · cases h
  | nonterminal n =>
    rw [← mem_nullable_iff, SortedSet.mem_def]
    simp [Symbol.isNullable, Symbol.isAmong]

/-- A text is found to derive the empty text just if it yields it. -/
theorem derivesEmpty_iff {ss : List Symbol} : g.derivesEmpty ss = true ↔ g.Yields ss [] := by
  induction ss with
  | nil => exact ⟨fun _ => .nil, fun _ => rfl⟩
  | cons s ss ih =>
    rw [yields_cons_nil, ← ih, ← isNullable_iff]
    simp only [derivesEmpty, List.all_cons, Bool.and_eq_true]

theorem derivesEmpty_iff_derives {ss : List Symbol} : g.derivesEmpty ss = true ↔ g.Derives ss [] :=
  derivesEmpty_iff.trans derives_iff_yields.symm

/-! ## Yielding anything -/

/-- The productive non-terminals are those that yield something. -/
theorem mem_productiveOf_iff {n : NonTerminal} :
    n ∈ productiveOf g.productions ↔ ∃ w, g.Yields [.nonterminal n] w := by
  rw [productiveOf_eq, mem_leastHeads_iff]
  exact ⟨fun ⟨w, hw, _⟩ => ⟨w, hw⟩, fun ⟨w, hw⟩ => ⟨w, hw, nofun⟩⟩

/-- Without underivable non-terminals every defined symbol yields something. -/
theorem exists_yields_of_defined (hu : g.underivable = []) {s : Symbol} (hs : Defined g.vocabulary g.rulebook s) :
    ∃ w, g.Yields [s] w := by
  cases s with
  | terminal t => exact ⟨[t], .terminal .nil⟩
  | nonterminal n =>
    rw [← mem_productiveOf_iff]
    apply Decidable.byContradiction
    intro hn
    have hm : n ∈ g.underivable := List.mem_filter.mpr ⟨hs, by simpa using hn⟩
    rw [hu] at hm
    exact List.not_mem_nil hm

/-- A text of symbols that each yield something yields something. -/
theorem exists_yields_of_forall : ∀ {ss : List Symbol}, (∀ s ∈ ss, ∃ w, g.Yields [s] w) → ∃ w, g.Yields ss w
  | [], _ => ⟨[], .nil⟩
  | s :: ss, h => by
    obtain ⟨u, hu⟩ := h s List.mem_cons_self
    obtain ⟨v, hv⟩ := exists_yields_of_forall fun s' hs' => h s' (List.mem_cons_of_mem _ hs')
    exact ⟨u ++ v, hu.append hv⟩

/-- Without underivable non-terminals the second part of a body yields something. -/
theorem exists_yields_of_body_eq_append (hu : g.underivable = []) {p : Production α} (hp : p ∈ g.productions)
    {a b : List Symbol} (hb : p.body = a ++ b) : ∃ w, g.Yields b w :=
  exists_yields_of_forall fun s hs => exists_yields_of_defined hu (defined_of_body_eq_append hp hb s hs)

/-! ## Beginnings -/

/-- A symbol leads a text if it leads the first part, or the second and the first yields the empty text. -/
theorem mem_leading_append {s : Symbol} {xs ys : List Symbol} :
    s ∈ leading g.nullable (xs ++ ys) ↔
      s ∈ leading g.nullable xs ∨ g.Yields xs [] ∧ s ∈ leading g.nullable ys := by
  induction xs with
  | nil => simp [leading, Yields.nil]
  | cons x xs ih =>
    simp only [List.cons_append, leading]
    rw [yields_cons_nil]
    split
    · rename_i hx
      simp only [List.mem_cons, ih, isNullable_iff.mp hx, true_and]
      exact or_assoc.symm
    · rename_i hx
      simp [← isNullable_iff, hx]

theorem mem_leading_cons (s : Symbol) (ss : List Symbol) : s ∈ leading g.nullable (s :: ss) := by
  simp only [leading]
  split <;> simp

/-- A symbol that leads a text stands in it behind symbols that yield the empty text. -/
theorem exists_append_of_mem_leading {s : Symbol} : ∀ {ss : List Symbol}, s ∈ leading g.nullable ss →
    ∃ xs ys, ss = xs ++ s :: ys ∧ g.Yields xs []
  | [], h => absurd h List.not_mem_nil
  | x :: ss, h => by
    simp only [leading] at h
    split at h
    · rename_i hx
      rcases List.mem_cons.mp h with rfl | h
      · exact ⟨[], ss, rfl, .nil⟩
      · obtain ⟨xs, ys, rfl, he⟩ := exists_append_of_mem_leading h
        exact ⟨x :: xs, ys, rfl, yields_cons_nil.mpr ⟨isNullable_iff.mp hx, he⟩⟩
    · exact ⟨[], ss, by rw [List.mem_singleton.mp h]; rfl, .nil⟩

/-- A symbol begins with another if replacements of leading symbols bring the other to the front. -/
def BeginsWith (g : Grammar α) (s : Symbol) : Symbol → Prop :=
  Search.Reached (beginnings g.productions g.nullable) [s]

theorem mem_beginnings_iff {s : Symbol} {n : NonTerminal} :
    s ∈ beginnings g.productions g.nullable (.nonterminal n) ↔
      ∃ p ∈ g.productions, p.head = n ∧ s ∈ leading g.nullable p.body := by
  simp [beginnings, productionsOf, and_assoc]

/-- What a symbol begins with stands at the front of a text that it derives. -/
theorem exists_derives_of_beginsWith {s x : Symbol} (h : g.BeginsWith s x) : ∃ xs, g.Derives [s] (x :: xs) := by
  induction h with
  | start h => exact ⟨[], List.mem_singleton.mp h ▸ .refl⟩
  | @step x y _ hy ih =>
    obtain ⟨xs, hx⟩ := ih
    cases x with
    | terminal t => exact absurd hy List.not_mem_nil
    | nonterminal n =>
      obtain ⟨p, hp, rfl, hl⟩ := mem_beginnings_iff.mp hy
      obtain ⟨as, bs, hb, ha⟩ := exists_append_of_mem_leading hl
      -- the symbols before `y` in the body vanish
      have h₁ := (derives_body hp).context [] xs
      have h₂ := (derives_iff_yields.mpr ha).context [] (y :: bs ++ xs)
      rw [hb] at h₁
      simp only [List.nil_append, List.singleton_append, List.append_assoc, List.map_nil] at h₁ h₂
      exact ⟨bs ++ xs, hx.trans (h₁.trans h₂)⟩

/-- Before a step, some leading symbol is or begins with the symbol that leads after it. -/
theorem exists_leading_of_produces {u v : List Symbol} (h : g.Produces u v) {y : Symbol}
    (hy : y ∈ leading g.nullable v) : ∃ x ∈ leading g.nullable u, g.BeginsWith x y := by
  obtain ⟨p, hp, a, b, rfl, rfl⟩ := h
  rw [List.append_assoc, mem_leading_append, mem_leading_append] at hy
  rcases hy with hy | ⟨ha, hy | ⟨hb, hy⟩⟩
  · exact ⟨y, mem_leading_append.mpr (.inl hy), .start List.mem_cons_self⟩
  · exact ⟨.nonterminal p.head, mem_leading_append.mpr (.inr ⟨ha, mem_leading_cons _ _⟩),
      .step (.start List.mem_cons_self) (mem_beginnings_iff.mpr ⟨p, hp, rfl, hy⟩)⟩
  · have hl : y ∈ leading g.nullable ([.nonterminal p.head] ++ b) :=
      mem_leading_append.mpr (.inr ⟨.head hp hb, hy⟩)
    exact ⟨y, mem_leading_append.mpr (.inr ⟨ha, hl⟩), .start List.mem_cons_self⟩

/-- Some leading symbol of a text is or begins with the symbol that leads what the text derives. -/
theorem exists_leading_of_derives {u v : List Symbol} (h : g.Derives u v) {y : Symbol}
    (hy : y ∈ leading g.nullable v) : ∃ x ∈ leading g.nullable u, g.BeginsWith x y := by
  induction h using Relation.ReflTransGen.head_induction_on with
  | refl => exact ⟨y, hy, .start List.mem_cons_self⟩
  | head hs _ ih =>
    obtain ⟨z, hz, hzy⟩ := ih
    obtain ⟨x, hx, hxz⟩ := exists_leading_of_produces hs hz
    exact ⟨x, hx, hxz.trans hzy⟩

/-- The search for what a symbol begins with is not cut short. -/
theorem covers_beginnings (s : Symbol) : Search.Covers (beginnings g.productions g.nullable)
    (s :: bodySymbols g.productions) [s] (symbolBound g.productions) where
  starts_mem x hx := List.mem_cons.mpr (.inl (List.mem_singleton.mp hx))
  next_mem x _ y hy := by
    cases x with
    | terminal t => exact absurd hy List.not_mem_nil
    | nonterminal n =>
      obtain ⟨p, hp, _, hl⟩ := mem_beginnings_iff.mp hy
      obtain ⟨as, bs, hb, _⟩ := exists_append_of_mem_leading hl
      refine List.mem_cons_of_mem _ (List.mem_flatMap.mpr ⟨p, hp, ?_⟩)
      rw [hb]
      exact List.mem_append_right _ List.mem_cons_self
  length_le := Nat.le_refl _

theorem mem_startersOf_iff {t : Terminal} {s : Symbol} :
    t ∈ startersOf g.productions g.nullable s ↔ g.BeginsWith s (.terminal t) := by
  have hr := Search.mem_reach_iff (covers_beginnings (g := g) s) (x := .terminal t)
  rw [startersOf, SortedSet.mem_ofList, List.mem_filterMap, BeginsWith, ← hr]
  constructor
  · rintro ⟨x, hx, ht⟩
    cases x with
    | terminal u => exact Option.some.inj ht ▸ hx
    | nonterminal n => cases ht
  · intro h
    exact ⟨_, h, rfl⟩

theorem beginsWith_terminal_iff {t : Terminal} {x : Symbol} : g.BeginsWith (.terminal t) x ↔ x = .terminal t := by
  refine ⟨fun h => ?_, fun h => h ▸ .start List.mem_cons_self⟩
  induction h with
  | start h => exact List.mem_singleton.mp h
  | step _ hy ih =>
    rw [ih] at hy
    exact absurd hy List.not_mem_nil

theorem mem_headsOf_of_beginsWith {n : NonTerminal} {t : Terminal}
    (h : g.BeginsWith (.nonterminal n) (.terminal t)) : n ∈ headsOf g.productions := by
  obtain ⟨xs, hd⟩ := exists_derives_of_beginsWith h
  rcases Relation.ReflTransGen.cases_head hd with he | ⟨v, ⟨p, hp, x, y, he, _⟩, _⟩
  · cases he
  · rcases List.append_eq_singleton_iff.mp he.symm with ⟨_, he⟩ | ⟨_, he⟩
    · obtain rfl : p.head = n := Symbol.nonterminal.inj (List.cons.inj he).1
      exact mem_distinct.mpr (List.mem_map_of_mem hp)
    · cases he

/-- The first set of a non-terminal holds the terminals that it begins with. -/
theorem mem_firstSet_iff {t : Terminal} {n : NonTerminal} :
    t ∈ g.firstSet n ↔ g.BeginsWith (.nonterminal n) (.terminal t) := by
  have hk : (((headsOf g.productions).map fun n => (n, startersOf g.productions g.nullable (.nonterminal n))).map
      Prod.fst).Nodup := by
    rw [List.map_map]
    simpa [Function.comp_def, headsOf] using nodup_distinct
  have hg (s : SortedSet Terminal) : g.first.get? n = some s ↔
      n ∈ headsOf g.productions ∧ startersOf g.productions g.nullable (.nonterminal n) = s := by
    rw [g.first_eq, firstOf, OrderedMap.get?_ofList_eq_some_iff hk]
    simp
  rw [← mem_startersOf_iff, firstSet]
  by_cases hn : n ∈ headsOf g.productions
  · rw [(hg _).mpr ⟨hn, rfl⟩]
    rfl
  · have hnone : g.first.get? n = none :=
      Option.eq_none_iff_forall_ne_some.mpr fun s hs => hn ((hg s).mp hs).1
    rw [hnone]
    refine ⟨fun h => absurd h List.not_mem_nil, fun h => ?_⟩
    exact absurd (mem_headsOf_of_beginsWith (mem_startersOf_iff.mp h)) hn

/-- The terminals that a text may begin with are those that its leading symbols begin with. -/
theorem mem_firstOfText_iff_beginsWith {t : Terminal} {ss : List Symbol} :
    t ∈ g.firstOfText ss ↔ ∃ s ∈ leading g.nullable ss, g.BeginsWith s (.terminal t) := by
  rw [firstOfText, SortedSet.mem_ofList, List.mem_flatMap]
  refine exists_congr fun s => and_congr_right fun _ => ?_
  cases s with
  | terminal u => simp [beginsWith_terminal_iff]
  | nonterminal n => exact mem_firstSet_iff

/-- **The terminals that a text may begin with are those that a derivation brings to the front.** -/
theorem mem_firstOfText_iff {t : Terminal} {ss : List Symbol} :
    t ∈ g.firstOfText ss ↔ ∃ xs, g.Derives ss (.terminal t :: xs) := by
  rw [mem_firstOfText_iff_beginsWith]
  constructor
  · rintro ⟨s, hs, hb⟩
    obtain ⟨xs, ys, rfl, hx⟩ := exists_append_of_mem_leading hs
    obtain ⟨zs, hz⟩ := exists_derives_of_beginsWith hb
    refine ⟨zs ++ ys, ?_⟩
    have := (derives_iff_yields.mpr hx).append (hz.append (.refl : g.Derives ys ys))
    simpa using this
  · rintro ⟨xs, hd⟩
    exact exists_leading_of_derives hd (mem_leading_cons _ _)

/-- A derivation keeps all symbols defined. -/
theorem Derives.defined {u v : List Symbol} (h : g.Derives u v) (hu : ∀ s ∈ u, Defined g.vocabulary g.rulebook s) :
    ∀ s ∈ v, Defined g.vocabulary g.rulebook s := by
  induction h with
  | refl => exact hu
  | tail _ hs ih =>
    obtain ⟨p, hp, x, y, rfl, rfl⟩ := hs
    intro s hm
    rcases List.mem_append.mp hm with hm | hm
    · rcases List.mem_append.mp hm with hm | hm
      · exact ih s (List.mem_append_left _ hm)
      · exact defined_of_mem_body hp hm
    · exact ih s (List.mem_append_right _ (List.mem_cons_of_mem _ hm))

/-- Without underivable non-terminals, a text of defined symbols yields a text with each terminal that it may begin
with at the front. -/
theorem exists_yields_cons (hu : g.underivable = []) {ss : List Symbol}
    (hss : ∀ s ∈ ss, Defined g.vocabulary g.rulebook s) {t : Terminal} (ht : t ∈ g.firstOfText ss) :
    ∃ w, g.Yields ss (t :: w) := by
  obtain ⟨xs, hd⟩ := mem_firstOfText_iff.mp ht
  obtain ⟨w, hw⟩ := exists_yields_of_forall fun s hs =>
    exists_yields_of_defined hu (hd.defined hss s (List.mem_cons_of_mem _ hs))
  exact ⟨w, (Yields.terminal hw).of_derives hd⟩

/-- A text may begin with the first terminal of what it yields. -/
theorem mem_firstOfText_of_yields {ss : List Symbol} {t : Terminal} {w : List Terminal} (h : g.Yields ss (t :: w)) :
    t ∈ g.firstOfText ss :=
  mem_firstOfText_iff.mpr ⟨w.map Symbol.terminal, derives_iff_yields.mpr h⟩

end Grammar

/-! ## Lists in brackets -/

namespace Brackets

def opening : Terminal := ⟨"(", by decide⟩

def closing : Terminal := ⟨")", by decide⟩

def list : NonTerminal := ⟨"list", by decide⟩

def items : NonTerminal := ⟨"items", by decide⟩

/-- A list is a sequence of lists in brackets. The items may derive the empty text, also at the end of a body. -/
def grammar : Grammar Unit :=
  .make ⟨[opening, closing], by decide, by decide⟩
    ⟨[(⟨list, [opening, items, closing]⟩, none), (⟨items, []⟩, none), (⟨items, [list, items]⟩, none)],
      by decide, by decide⟩
    list (by decide) (by decide)

end Brackets

/-! ## Sums -/

namespace Sums

def plus : Terminal := ⟨"+", by decide⟩

def one : Terminal := ⟨"1", by decide⟩

def sum : NonTerminal := ⟨"sum", by decide⟩

/-- Sums of ones. The grammar does not say which of two signs binds first, so its table has conflicts. -/
def grammar : Grammar Unit :=
  .make ⟨[plus, one], by decide, by decide⟩
    ⟨[(⟨sum, [sum, plus, sum]⟩, none), (⟨sum, [one]⟩, none)], by decide, by decide⟩
    sum (by decide) (by decide)

end Sums

end CanonicalLR
