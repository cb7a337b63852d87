import CanonicalLR.Proofs.Grammar.Analysis

/-!
# Translations between grammars

A translation reads the symbols and production numbers of one grammar as those of another. If it takes the productions
of the first to productions of the second, it takes derivations to derivations, and with them whatever the derivations
decide: which texts derive the empty text, and which terminals they may begin with (`Translation.Maps`).

Two grammars correspond if translations in both directions undo each other on the symbols that the grammars use
(`Translation.Corresponds`). A renaming of symbols is such a translation, and so is a renumbering of rules.
-/

namespace CanonicalLR

variable {α β : Type}

/-- A way to read the symbols and the production numbers of one grammar as those of another. -/
structure Translation where
  terminal : Terminal → Terminal
  nonterminal : NonTerminal → NonTerminal
  number : Int → Int

namespace Translation

section Definitions

variable (r : Translation)

/-- What a symbol is read as. -/
def symbol : Symbol → Symbol
  | .terminal t => .terminal (r.terminal t)
  | .nonterminal n => .nonterminal (r.nonterminal n)

@[simp] theorem symbol_terminal (t : Terminal) : r.symbol (.terminal t) = .terminal (r.terminal t) := rfl

@[simp] theorem symbol_nonterminal (n : NonTerminal) : r.symbol (.nonterminal n) = .nonterminal (r.nonterminal n) := rfl

/-- What a rule is read as. -/
def rule (x : Rule) : Rule := ⟨r.nonterminal x.head, x.body.map r.symbol⟩

/-- The translation takes the productions of a grammar to productions of another, and keeps the reserved symbols. -/
structure Maps (g : Grammar α) (g' : Grammar β) : Prop where
  endMark_eq : r.terminal endMark = endMark
  augmentedStart_eq : r.nonterminal augmentedStart = augmentedStart
  exists_production : ∀ p ∈ g.productions, ∃ q ∈ g'.productions, q.toRule = r.rule p.toRule ∧
    (q.number : Int) = r.number p.number

/-- The translation leaves the numbers of productions as they are. -/
def KeepsNumbers : Prop := ∀ i, r.number i = i

end Definitions

end Translation

/-- A grammar uses the end marker, the heads of its productions, and what stands in their bodies. -/
def Grammar.Uses (g : Grammar α) (s : Symbol) : Prop :=
  s = .terminal endMark ∨ ∃ p ∈ g.productions, s = .nonterminal p.head ∨ s ∈ p.body

/-- Translations between two grammars undo each other on what the grammars use. -/
structure Translation.Corresponds (r r' : Translation) (g : Grammar α) (g' : Grammar β) : Prop where
  maps : r.Maps g g'
  back : r'.Maps g' g
  symbol_back : ∀ s, g.Uses s → r'.symbol (r.symbol s) = s
  symbol_forth : ∀ s, g'.Uses s → r.symbol (r'.symbol s) = s

variable {g : Grammar α} {g' : Grammar β} {r r' : Translation}

/-! ## What is used -/

namespace Grammar

theorem uses_endMark : g.Uses (.terminal endMark) := .inl rfl

theorem uses_head {p : Production α} (hp : p ∈ g.productions) : g.Uses (.nonterminal p.head) :=
  .inr ⟨p, hp, .inl rfl⟩

theorem uses_of_mem_body {p : Production α} (hp : p ∈ g.productions) {s : Symbol} (hs : s ∈ p.body) : g.Uses s :=
  .inr ⟨p, hp, .inr hs⟩

/-- A derivation puts nothing in that is not used. -/
theorem Derives.uses {u v : List Symbol} (h : g.Derives u v) (hu : ∀ s ∈ u, g.Uses s) : ∀ s ∈ v, g.Uses s := by
  induction h with
  | refl => exact hu
  | tail _ hs ih =>
    obtain ⟨p, hp, x, y, rfl, rfl⟩ := hs
    intro s hs
    simp only [List.mem_append] at hs
    rcases hs with (hs | hs) | hs
    · exact ih s (by simp [hs])
    · exact uses_of_mem_body hp hs
    · exact ih s (by simp [hs])

/-- A text of used symbols begins with used terminals. -/
theorem uses_of_mem_firstOfText {ss : List Symbol} (hss : ∀ s ∈ ss, g.Uses s) {t : Terminal}
    (ht : t ∈ g.firstOfText ss) : g.Uses (.terminal t) := by
  obtain ⟨xs, hd⟩ := mem_firstOfText_iff.mp ht
  exact hd.uses hss _ List.mem_cons_self

end Grammar

namespace Translation

/-! ## Derivations -/

section Maps

variable (h : r.Maps g g')
include h

/-- A production is taken to one with the translated head and body. -/
theorem Maps.exists_head_body {p : Production α} (hp : p ∈ g.productions) : ∃ q ∈ g'.productions,
    q.head = r.nonterminal p.head ∧ q.body = p.body.map r.symbol ∧ (q.number : Int) = r.number p.number := by
  obtain ⟨q, hq, he, hn⟩ := h.exists_production p hp
  exact ⟨q, hq, congrArg Rule.head he, congrArg Rule.body he, hn⟩

/-- Each step of a derivation is taken to a step. -/
theorem Maps.produces {u v : List Symbol} (hs : g.Produces u v) :
    g'.Produces (u.map r.symbol) (v.map r.symbol) := by
  obtain ⟨p, hp, x, y, rfl, rfl⟩ := hs
  obtain ⟨q, hq, hhead, hbody, -⟩ := h.exists_head_body hp
  exact ⟨q, hq, x.map r.symbol, y.map r.symbol, by simp [hhead], by simp [hbody]⟩

theorem Maps.derives {u v : List Symbol} (hd : g.Derives u v) : g'.Derives (u.map r.symbol) (v.map r.symbol) := by
  induction hd with
  | refl => exact .refl
  | tail _ hs ih => exact ih.tail (h.produces hs)

/-- What derives the empty text is taken to what does. -/
theorem Maps.yields_nil {ss : List Symbol} (hy : g.Yields ss []) : g'.Yields (ss.map r.symbol) [] :=
  Grammar.derives_iff_yields.mp (h.derives (Grammar.derives_iff_yields.mpr hy))

/-- The terminals that a text may begin with are taken to terminals that its translation may begin with. -/
theorem Maps.mem_firstOfText {ss : List Symbol} {t : Terminal} (ht : t ∈ g.firstOfText ss) :
    r.terminal t ∈ g'.firstOfText (ss.map r.symbol) := by
  obtain ⟨xs, hd⟩ := Grammar.mem_firstOfText_iff.mp ht
  exact Grammar.mem_firstOfText_iff.mpr ⟨xs.map r.symbol, h.derives hd⟩

/-- The augmented production is taken to the augmented production. -/
theorem Maps.start_eq : r.nonterminal g.start = g'.start ∧ r.number 0 = 0 := by
  obtain ⟨q, hq, hhead, hbody, hn⟩ := h.exists_head_body Grammar.augmented_mem
  have hq' : q = g'.augmented := (Grammar.head_eq_augmentedStart_iff hq).mp (hhead.trans h.augmentedStart_eq)
  subst hq'
  have hstart : [Symbol.nonterminal g'.start] = [Symbol.nonterminal (r.nonterminal g.start)] := hbody
  refine ⟨?_, hn.symm⟩
  simpa using hstart.symm

end Maps

/-! ## There and back -/

/-- What only one member has is found at that member. Translations back are made by such a search. -/
theorem find?_eq_some_of_unique {ι : Type} {p : ι → Bool} {xs : List ι} {x : ι} (hx : x ∈ xs) (hp : p x = true)
    (hunique : ∀ y ∈ xs, p y = true → y = x) : xs.find? p = some x := by
  cases hfind : xs.find? p with
  | none => exact absurd hp (by simpa using List.find?_eq_none.mp hfind x hx)
  | some y => rw [hunique y (List.mem_of_find?_eq_some hfind) (List.find?_some hfind)]

section Corresponds

variable (h : r.Corresponds r' g g')
include h

theorem Corresponds.symm : r'.Corresponds r g' g := ⟨h.back, h.maps, h.symbol_forth, h.symbol_back⟩

/-- Different symbols are read as different symbols. -/
theorem Corresponds.symbol_inj {s t : Symbol} (hs : g.Uses s) (ht : g.Uses t) (he : r.symbol s = r.symbol t) :
    s = t := by
  rw [← h.symbol_back s hs, he, h.symbol_back t ht]

theorem Corresponds.terminal_back {t : Terminal} (ht : g.Uses (.terminal t)) : r'.terminal (r.terminal t) = t := by
  have hs := h.symbol_back _ ht
  simpa using hs

theorem Corresponds.nonterminal_back {n : NonTerminal} (hn : g.Uses (.nonterminal n)) :
    r'.nonterminal (r.nonterminal n) = n := by
  have hs := h.symbol_back _ hn
  simpa using hs

theorem Corresponds.text_back {γ : List Symbol} (hγ : ∀ s ∈ γ, g.Uses s) : (γ.map r.symbol).map r'.symbol = γ := by
  rw [List.map_map]
  exact (List.map_congr_left fun s hs => h.symbol_back s (hγ s hs)).trans (List.map_id γ)

theorem Corresponds.rule_back {p : Production α} (hp : p ∈ g.productions) : r'.rule (r.rule p.toRule) = p.toRule := by
  have hhead := h.nonterminal_back (Grammar.uses_head hp)
  have hbody := h.text_back fun s hs => Grammar.uses_of_mem_body hp hs
  exact congrArg₂ Rule.mk hhead hbody

/-- Production numbers are translated back as well. -/
theorem Corresponds.number_back {p : Production α} (hp : p ∈ g.productions) :
    r'.number (r.number p.number) = p.number := by
  obtain ⟨q, hq, he, hn⟩ := h.maps.exists_production p hp
  obtain ⟨p', hp', he', hn'⟩ := h.back.exists_production q hq
  rw [he, h.rule_back hp] at he'
  rw [← hn, ← hn', Grammar.eq_of_toRule_eq hp' hp he']

/-- What is used is taken to what is used. -/
theorem Corresponds.uses {s : Symbol} (hs : g.Uses s) : g'.Uses (r.symbol s) := by
  rcases hs with rfl | ⟨p, hp, rfl | hs⟩
  · rw [symbol_terminal, h.maps.endMark_eq]
    exact Grammar.uses_endMark
  · obtain ⟨q, hq, hhead, -⟩ := h.maps.exists_head_body hp
    rw [symbol_nonterminal, ← hhead]
    exact Grammar.uses_head hq
  · obtain ⟨q, hq, -, hbody, -⟩ := h.maps.exists_head_body hp
    exact Grammar.uses_of_mem_body hq (hbody ▸ List.mem_map_of_mem hs)

end Corresponds

end Translation

end CanonicalLR
