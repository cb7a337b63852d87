import CanonicalLR.Proofs.Grammar.Translation
import Mathlib.Data.Set.Function

/-!
# Renamed grammars

A grammar whose rules are those of another under new names has the productions of the other under new names, in the
same order (`Renaming.Renames.toRule_productions`). New names that differ for different symbols can be read back
(`Renaming.undo`), so the grammars correspond (`Renaming.Renames.corresponds`). Nothing is asked of how the new names
compare, of the order in which terminals are declared, of terminals that no rule holds, or of payloads.
-/

namespace CanonicalLR

variable {α β : Type}

/-- New names for terminals and for non-terminals. -/
structure Renaming where
  terminal : Terminal → Terminal
  nonterminal : NonTerminal → NonTerminal

namespace Renaming

/-- A renaming as a translation: the reserved symbols keep their names, and the productions their numbers. -/
def translation (f : Renaming) : Translation where
  terminal t := if t = endMark then endMark else f.terminal t
  nonterminal n := if n = augmentedStart then augmentedStart else f.nonterminal n
  number := id

/-- A grammar has the rules and the start symbol of another under new names, different ones for different symbols. Its
terminals are, in any order, those of the other under new names, and maybe more. -/
structure Renames (f : Renaming) (g : Grammar α) (g' : Grammar β) : Prop where
  injOn_terminal : Set.InjOn f.terminal {t | t ∈ g.vocabulary.terminals}
  injOn_nonterminal : Set.InjOn f.nonterminal {n | n ∈ g.nonterminals}
  terminal_mem : ∀ t ∈ g.vocabulary.terminals, f.terminal t ∈ g'.vocabulary.terminals
  rules_eq : g'.rulebook.rules = g.rulebook.rules.map f.translation.rule
  start_eq : g'.start = f.nonterminal g.start

/-- The translation back: a name is read as the symbol of the grammar that was given the name. -/
def undo (f : Renaming) (g : Grammar α) : Translation where
  terminal u := (g.terminals.find? fun t => f.translation.terminal t = u).getD u
  nonterminal m := ((augmentedStart :: g.nonterminals).find? fun n => f.translation.nonterminal n = m).getD m
  number := id

theorem keepsNumbers_translation (f : Renaming) : f.translation.KeepsNumbers := fun _ => rfl

theorem keepsNumbers_undo (f : Renaming) (g : Grammar α) : (f.undo g).KeepsNumbers := fun _ => rfl

end Renaming

variable {f : Renaming} {g : Grammar α} {g' : Grammar β}

/-! ## What is used -/

namespace Grammar

/-- A terminal that is used is one of the grammar. -/
theorem Uses.mem_terminals {t : Terminal} (h : g.Uses (.terminal t)) : t ∈ g.terminals := by
  rcases h with h | ⟨p, hp, h | h⟩
  · rw [Symbol.terminal.inj h]
    exact endMark_mem_terminals
  · cases h
  · exact mem_terminals_of_mem_body hp h

/-- A non-terminal that is used is the augmented start or has a rule. -/
theorem Uses.mem_nonterminals {n : NonTerminal} (h : g.Uses (.nonterminal n)) :
    n ∈ augmentedStart :: g.nonterminals := by
  rcases h with h | ⟨p, hp, h | h⟩
  · cases h
  · rw [Symbol.nonterminal.inj h]
    rcases eq_augmented_or_mem_rules hp with rfl | hr
    · exact List.mem_cons_self
    · exact List.mem_cons_of_mem _ (Rulebook.mem_heads.mpr ⟨_, hr, rfl⟩)
  · exact List.mem_cons_of_mem _ (defined_of_mem_body hp h)

theorem ne_augmentedStart_of_mem_nonterminals {n : NonTerminal} (hn : n ∈ g.nonterminals) : n ≠ augmentedStart := by
  obtain ⟨r, hr, rfl⟩ := Rulebook.mem_heads.mp hn
  exact head_ne_augmentedStart_of_mem_rules hr

/-- The rules of all productions: that of the augmented one first. -/
theorem toRule_productions :
    (g.productions.map fun p => p.toRule) = ⟨augmentedStart, [.nonterminal g.start]⟩ :: g.rulebook.rules := by
  rw [productions_eq_cons, List.map_cons, tail_productions_map]
  rfl

end Grammar

namespace Renaming.Renames

variable (h : f.Renames g g')
include h

/-! ## Symbols -/

theorem terminal_eq {t : Terminal} (ht : t ∈ g.vocabulary.terminals) :
    f.translation.terminal t = f.terminal t ∧ f.terminal t ≠ endMark :=
  ⟨if_neg (Grammar.ne_endMark_of_mem_vocabulary ht), Grammar.ne_endMark_of_mem_vocabulary (h.terminal_mem t ht)⟩

theorem nonterminal_eq {n : NonTerminal} (hn : n ∈ g.nonterminals) :
    f.translation.nonterminal n = f.nonterminal n ∧ f.nonterminal n ≠ augmentedStart := by
  have heq : f.translation.nonterminal n = f.nonterminal n :=
    if_neg (Grammar.ne_augmentedStart_of_mem_nonterminals hn)
  refine ⟨heq, fun he => ?_⟩
  obtain ⟨r, hr, rfl⟩ := Rulebook.mem_heads.mp hn
  have hr' : f.translation.rule r ∈ g'.rulebook.rules := h.rules_eq ▸ List.mem_map_of_mem hr
  exact Grammar.head_ne_augmentedStart_of_mem_rules hr' (heq.trans he)

/-- Different terminals of the grammar, the end marker among them, have different names. -/
theorem terminal_inj {t u : Terminal} (ht : t ∈ g.terminals) (hu : u ∈ g.terminals)
    (he : f.translation.terminal t = f.translation.terminal u) : t = u := by
  rcases List.mem_append.mp ht with ht | ht <;> rcases List.mem_append.mp hu with hu | hu
  · rw [(h.terminal_eq ht).1, (h.terminal_eq hu).1] at he
    exact h.injOn_terminal ht hu he
  · rw [List.mem_singleton.mp hu, (h.terminal_eq ht).1] at he
    exact absurd he (h.terminal_eq ht).2
  · rw [List.mem_singleton.mp ht, (h.terminal_eq hu).1] at he
    exact absurd he.symm (h.terminal_eq hu).2
  · rw [List.mem_singleton.mp ht, List.mem_singleton.mp hu]

theorem nonterminal_inj {n m : NonTerminal} (hn : n ∈ augmentedStart :: g.nonterminals)
    (hm : m ∈ augmentedStart :: g.nonterminals) (he : f.translation.nonterminal n = f.translation.nonterminal m) :
    n = m := by
  rcases List.mem_cons.mp hn with rfl | hn <;> rcases List.mem_cons.mp hm with rfl | hm
  · rfl
  · rw [(h.nonterminal_eq hm).1] at he
    exact absurd he.symm (h.nonterminal_eq hm).2
  · rw [(h.nonterminal_eq hn).1] at he
    exact absurd he (h.nonterminal_eq hn).2
  · rw [(h.nonterminal_eq hn).1, (h.nonterminal_eq hm).1] at he
    exact h.injOn_nonterminal hn hm he

/-- Terminals of the grammar are taken to terminals of the renamed grammar. -/
theorem mem_terminals {t : Terminal} (ht : t ∈ g.terminals) : f.translation.terminal t ∈ g'.terminals := by
  rcases List.mem_append.mp ht with ht | ht
  · rw [(h.terminal_eq ht).1]
    exact List.mem_append_left _ (h.terminal_mem t ht)
  · rw [List.mem_singleton.mp ht]
    exact Grammar.endMark_mem_terminals

/-- The name of a symbol that is used is read back as the symbol. -/
theorem undo_symbol {s : Symbol} (hs : g.Uses s) : (f.undo g).symbol (f.translation.symbol s) = s := by
  cases s with
  | terminal t =>
    have ht := hs.mem_terminals
    have hfind : g.terminals.find? (fun u => f.translation.terminal u = f.translation.terminal t) = some t :=
      Translation.find?_eq_some_of_unique ht (by simp) fun u hu he => h.terminal_inj hu ht (of_decide_eq_true he)
    simp only [Translation.symbol, undo, hfind, Option.getD_some]
  | nonterminal n =>
    have hn := hs.mem_nonterminals
    have hfind : (augmentedStart :: g.nonterminals).find?
        (fun m => f.translation.nonterminal m = f.translation.nonterminal n) = some n :=
      Translation.find?_eq_some_of_unique hn (by simp) fun m hm he => h.nonterminal_inj hm hn (of_decide_eq_true he)
    simp only [Translation.symbol, undo, hfind, Option.getD_some]

/-! ## Productions -/

/-- **The productions are the same, apart from names and payloads.** -/
theorem toRule_productions :
    (g'.productions.map fun q => q.toRule) = (g.productions.map fun p => p.toRule).map f.translation.rule := by
  have hstart : f.translation.nonterminal g.start = g'.start := by rw [(h.nonterminal_eq g.start_mem).1, h.start_eq]
  have haug : f.translation.rule ⟨augmentedStart, [.nonterminal g.start]⟩ =
      ⟨augmentedStart, [.nonterminal g'.start]⟩ := by
    simp only [Translation.rule, List.map_cons, Translation.symbol_nonterminal, List.map_nil, hstart]
    rfl
  rw [Grammar.toRule_productions, Grammar.toRule_productions, List.map_cons, haug, h.rules_eq]

/-- Productions of one number have the same rule, apart from names. -/
theorem getElem?_productions (i : Nat) :
    (g'.productions[i]?).map (fun q => q.toRule) = (g.productions[i]?).map fun p => f.translation.rule p.toRule := by
  have hi := congrArg (·[i]?) h.toRule_productions
  simp only [List.getElem?_map, Option.map_map] at hi
  exact hi

theorem exists_production {p : Production α} (hp : p ∈ g.productions) :
    ∃ q ∈ g'.productions, q.toRule = f.translation.rule p.toRule ∧ q.number = p.number := by
  have hi := h.getElem?_productions p.number
  rw [Grammar.getElem?_number hp] at hi
  obtain ⟨q, hq, he⟩ := Option.map_eq_some_iff.mp hi
  exact ⟨q, List.mem_of_getElem? hq, he, Grammar.number_of_getElem? hq⟩

theorem exists_source {q : Production β} (hq : q ∈ g'.productions) :
    ∃ p ∈ g.productions, q.toRule = f.translation.rule p.toRule ∧ q.number = p.number := by
  have hi := h.getElem?_productions q.number
  rw [Grammar.getElem?_number hq] at hi
  obtain ⟨p, hp, he⟩ := Option.map_eq_some_iff.mp hi.symm
  exact ⟨p, List.mem_of_getElem? hp, he.symm, (Grammar.number_of_getElem? hp).symm⟩

/-! ## There and back -/

theorem maps : f.translation.Maps g g' where
  endMark_eq := rfl
  augmentedStart_eq := rfl
  exists_production p hp := by
    obtain ⟨q, hq, he, hn⟩ := h.exists_production hp
    exact ⟨q, hq, he, congrArg _ hn⟩

theorem undo_rule {p : Production α} (hp : p ∈ g.productions) :
    (f.undo g).rule (f.translation.rule p.toRule) = p.toRule := by
  have hhead := h.undo_symbol (Grammar.uses_head hp)
  simp only [Translation.symbol_nonterminal, Symbol.nonterminal.injEq] at hhead
  have hbody : (p.body.map f.translation.symbol).map (f.undo g).symbol = p.body := by
    rw [List.map_map]
    exact (List.map_congr_left fun s hs => h.undo_symbol (Grammar.uses_of_mem_body hp hs)).trans (List.map_id p.body)
  exact congrArg₂ Rule.mk hhead hbody

/-- What the renamed grammar uses is the new name of what the grammar uses. -/
theorem exists_uses {s : Symbol} (hs : g'.Uses s) : ∃ x, g.Uses x ∧ f.translation.symbol x = s := by
  rcases hs with rfl | ⟨q, hq, hs⟩
  · exact ⟨.terminal endMark, Grammar.uses_endMark, rfl⟩
  · obtain ⟨p, hp, he, -⟩ := h.exists_source hq
    have hhead : q.head = f.translation.nonterminal p.head := congrArg Rule.head he
    have hbody : q.body = p.body.map f.translation.symbol := congrArg Rule.body he
    rcases hs with rfl | hs
    · exact ⟨.nonterminal p.head, Grammar.uses_head hp, by rw [hhead, Translation.symbol_nonterminal]⟩
    · obtain ⟨x, hx, rfl⟩ := List.mem_map.mp (hbody ▸ hs)
      exact ⟨x, Grammar.uses_of_mem_body hp hx, rfl⟩

theorem maps_back : (f.undo g).Maps g' g where
  endMark_eq := by
    have hend := h.undo_symbol Grammar.uses_endMark
    exact Symbol.terminal.inj hend
  augmentedStart_eq := by
    have hstart := h.undo_symbol (Grammar.uses_head Grammar.augmented_mem)
    exact Symbol.nonterminal.inj hstart
  exists_production q hq := by
    obtain ⟨p, hp, he, hn⟩ := h.exists_source hq
    exact ⟨p, hp, by rw [he, h.undo_rule hp], congrArg _ hn.symm⟩

/-- **A renaming and the translation back undo each other.** -/
theorem corresponds : f.translation.Corresponds (f.undo g) g g' where
  maps := h.maps
  back := h.maps_back
  symbol_back _ hs := h.undo_symbol hs
  symbol_forth s hs := by
    obtain ⟨x, hx, rfl⟩ := h.exists_uses hs
    rw [h.undo_symbol hx]

end Renaming.Renames

end CanonicalLR
