import CanonicalLR.Proofs.Grammar.Translation

/-!
# Rules in another order

A grammar that has the terminals, the start symbol and the rules of another, the rules in any order, has the same
productions apart from their numbers (`Reorders.exists_production`). The translation that gives each production the
number that it has there, and leaves all symbols as they are, undoes the translation back (`Reorders.corresponds`).
-/

namespace CanonicalLR

variable {α β : Type}

namespace Grammar

/-- A grammar has the terminals, the start symbol and the rules of another, the rules in any order. -/
structure Reorders (g' g : Grammar α) : Prop where
  vocabulary_eq : g'.vocabulary = g.vocabulary
  start_eq : g'.start = g.start
  entries_perm : g'.rulebook.entries.Perm g.rulebook.entries

/-- The translation that leaves all symbols as they are, and gives a production of one grammar the number that the
production with the same rule has in another. -/
def renumbering (g : Grammar α) (g' : Grammar β) : Translation where
  terminal := id
  nonterminal := id
  number i := (((g.production? i).bind fun p => g'.productions.find? fun q => q.toRule = p.toRule).map
    fun q => (q.number : Int)).getD i

variable {g g' : Grammar α}

@[simp] theorem renumbering_symbol {g : Grammar α} {g' : Grammar β} (s : Symbol) : (g.renumbering g').symbol s = s := by
  cases s <;> rfl

@[simp] theorem renumbering_map {g : Grammar α} {g' : Grammar β} (γ : List Symbol) :
    γ.map (g.renumbering g').symbol = γ :=
  (List.map_congr_left fun s _ => renumbering_symbol s).trans (List.map_id γ)

@[simp] theorem renumbering_rule {g : Grammar α} {g' : Grammar β} (x : Rule) : (g.renumbering g').rule x = x := by
  rw [Translation.rule, renumbering_map]
  rfl

/-- The number that a production is given is that of the production with the same rule. -/
theorem renumbering_number {g : Grammar α} {g' : Grammar β} {p : Production α} {q : Production β}
    (hp : p ∈ g.productions) (hq : q ∈ g'.productions) (h : q.toRule = p.toRule) :
    (g.renumbering g').number p.number = q.number := by
  have hfind : g'.productions.find? (fun q => q.toRule = p.toRule) = some q :=
    Translation.find?_eq_some_of_unique hq (by simpa using h) fun q' hq' he =>
      eq_of_toRule_eq hq' hq ((of_decide_eq_true he).trans h.symm)
  simp only [renumbering, production?_number hp, Option.bind_some, hfind, Option.map_some, Option.getD_some]

namespace Reorders

variable (h : g'.Reorders g)
include h

theorem symm : g.Reorders g' := ⟨h.vocabulary_eq.symm, h.start_eq.symm, h.entries_perm.symm⟩

theorem terminals_eq : g'.terminals = g.terminals := by rw [terminals, terminals, h.vocabulary_eq]

/-- **A production has its rule and its payload in both grammars.** -/
theorem exists_production {p : Production α} (hp : p ∈ g.productions) :
    ∃ q ∈ g'.productions, q.toRule = p.toRule ∧ q.action = p.action := by
  by_cases h0 : p = g.augmented
  · refine ⟨g'.augmented, augmented_mem, ?_, by rw [h0]; rfl⟩
    rw [h0, augmented, augmented, h.start_eq]
  · have hentry : (p.toRule, p.action) ∈ g.rulebook.entries := by
      rw [← tail_productions_map_entry]
      exact List.mem_map_of_mem (mem_tail_iff.mpr ⟨hp, h0⟩)
    have hentry' := h.entries_perm.mem_iff.mpr hentry
    rw [← tail_productions_map_entry] at hentry'
    obtain ⟨q, hq, he⟩ := List.mem_map.mp hentry'
    exact ⟨q, List.mem_of_mem_tail hq, congrArg Prod.fst he, congrArg Prod.snd he⟩

/-- The grammars have the same productions, apart from their numbers. -/
theorem maps : (g.renumbering g').Maps g g' where
  endMark_eq := rfl
  augmentedStart_eq := rfl
  exists_production p hp := by
    obtain ⟨q, hq, he, -⟩ := h.exists_production hp
    exact ⟨q, hq, he.trans (renumbering_rule _).symm, (renumbering_number hp hq he).symm⟩

/-- **The renumberings in both directions undo each other.** -/
theorem corresponds : (g.renumbering g').Corresponds (g'.renumbering g) g g' where
  maps := h.maps
  back := h.symm.maps
  symbol_back s _ := by rw [renumbering_symbol, renumbering_symbol]
  symbol_forth s _ := by rw [renumbering_symbol, renumbering_symbol]

end Reorders

end Grammar

end CanonicalLR
