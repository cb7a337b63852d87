import CanonicalLR.Grammar.Basic
import Mathlib.Data.List.Nodup

/-!
# The productions of a grammar

A production of a grammar is the augmented one, which has the number 0 and replaces the augmented start by the start
symbol, or comes from a rule. Numbers name productions (`production?_number`, `eq_of_number_eq`), and so do heads with
bodies (`eq_of_toRule_eq`). No body holds a reserved symbol or one that is not defined.
-/

namespace CanonicalLR.Grammar

variable {α : Type}

/-- The production that a grammar is augmented with. -/
def augmented (g : Grammar α) : Production α :=
  { head := augmentedStart, body := [.nonterminal g.start], number := 0, action := none }

variable {g : Grammar α} {p q : Production α}

theorem productions_eq_cons : g.productions = g.augmented :: g.productions.tail := by
  rw [g.productions_eq]
  rfl

theorem tail_productions_map : (g.productions.tail.map fun p => p.toRule) = g.rulebook.rules := by
  rw [g.productions_eq]
  exact tail_augment_map

/-- The productions that come from rules are the rules, each with its payload. -/
theorem tail_productions_map_entry :
    (g.productions.tail.map fun p => (p.toRule, p.action)) = g.rulebook.entries := by
  rw [g.productions_eq, augment, List.tail_cons, List.map_map]
  exact List.zipIdx_map_fst 1 g.rulebook.entries

theorem augmented_mem : g.augmented ∈ g.productions := by
  rw [productions_eq_cons]
  exact List.mem_cons_self

/-- A production is the augmented one or comes from a rule. -/
theorem eq_augmented_or_mem_rules (hp : p ∈ g.productions) : p = g.augmented ∨ p.toRule ∈ g.rulebook.rules := by
  rw [productions_eq_cons] at hp
  rcases List.mem_cons.mp hp with rfl | hp
  · exact .inl rfl
  · exact .inr (tail_productions_map ▸ List.mem_map_of_mem hp)

/-! ## Numbers -/

/-- The number of a production is its place. -/
theorem getElem?_number (hp : p ∈ g.productions) : g.productions[p.number]? = some p := by
  obtain ⟨i, hi⟩ := List.mem_iff_getElem?.mp hp
  have hn : p.number = i := number_of_getElem? hi
  rw [hn]
  exact hi

theorem production?_number (hp : p ∈ g.productions) : g.production? p.number = some p := by
  rw [production?, Position.get?_natCast]
  exact getElem?_number hp

/-- The numbers that are counted from the start are those of productions. -/
theorem exists_number_eq {i : Int} (hnn : 0 ≤ i) (hlt : i < g.size) : ∃ p ∈ g.productions, (p.number : Int) = i := by
  obtain ⟨k, rfl⟩ := Int.eq_ofNat_of_zero_le hnn
  obtain ⟨p, hp⟩ : ∃ p, g.productions[k]? = some p := ⟨_, List.getElem?_eq_getElem (Int.ofNat_lt.mp hlt)⟩
  have hnum : p.number = k := number_of_getElem? hp
  exact ⟨p, List.mem_of_getElem? hp, by rw [hnum]⟩

theorem eq_of_number_eq (hp : p ∈ g.productions) (hq : q ∈ g.productions) (h : p.number = q.number) : p = q := by
  have hpq := getElem?_number hp
  rw [h, getElem?_number hq] at hpq
  exact (Option.some.inj hpq).symm

/-! ## Reserved and defined symbols -/

theorem not_isReserved_start : ¬IsReserved g.start.name := by
  obtain ⟨r, hr, hs⟩ := Rulebook.mem_heads.mp g.start_mem
  obtain ⟨e, he, rfl⟩ := List.mem_map.mp hr
  exact hs ▸ (g.rulebook.unreserved e he).1

/-- No body holds a reserved symbol. -/
theorem not_isReserved_of_mem_body (hp : p ∈ g.productions) {s : Symbol} (hs : s ∈ p.body) : ¬IsReserved s.name := by
  rcases eq_augmented_or_mem_rules hp with rfl | hr
  · rw [List.mem_singleton.mp hs]
    exact not_isReserved_start
  · obtain ⟨e, he, hpe⟩ := List.mem_map.mp hr
    exact (g.rulebook.unreserved e he).2 s (hpe ▸ hs)

/-- The augmented start stands in no body. -/
theorem ne_augmentedStart_of_mem_body (hp : p ∈ g.productions) {n : NonTerminal} (hn : .nonterminal n ∈ p.body) :
    n ≠ augmentedStart := by
  rintro rfl
  exact not_isReserved_of_mem_body hp hn (.inr rfl)

theorem augmentedStart_notMem_body (hp : p ∈ g.productions) : .nonterminal augmentedStart ∉ p.body :=
  fun hm => ne_augmentedStart_of_mem_body hp hm rfl

/-- The end marker is not declared. -/
theorem ne_endMark_of_mem_vocabulary {t : Terminal} (ht : t ∈ g.vocabulary.terminals) : t ≠ endMark := by
  rintro rfl
  exact g.vocabulary.unreserved endMark ht (.inl rfl)

theorem ne_endMark_of_mem_body (hp : p ∈ g.productions) {t : Terminal} (ht : .terminal t ∈ p.body) : t ≠ endMark := by
  rintro rfl
  exact not_isReserved_of_mem_body hp ht (.inl rfl)

/-- Every symbol of a body is declared or has a rule. -/
theorem defined_of_mem_body (hp : p ∈ g.productions) {s : Symbol} (hs : s ∈ p.body) :
    Defined g.vocabulary g.rulebook s := by
  rcases eq_augmented_or_mem_rules hp with rfl | hr
  · rw [List.mem_singleton.mp hs]
    exact g.start_mem
  · exact g.defined p.toRule hr s hs

/-- Every symbol of the second part of a body is declared or has a rule. -/
theorem defined_of_body_eq_append (hp : p ∈ g.productions) {a b : List Symbol} (hb : p.body = a ++ b) :
    ∀ s ∈ b, Defined g.vocabulary g.rulebook s := by
  intro s hs
  apply defined_of_mem_body hp
  rw [hb]
  exact List.mem_append_right a hs

theorem mem_terminals_of_mem_body (hp : p ∈ g.productions) {t : Terminal} (ht : .terminal t ∈ p.body) :
    t ∈ g.terminals :=
  List.mem_append_left _ (defined_of_mem_body hp ht)

theorem endMark_mem_terminals : endMark ∈ g.terminals := List.mem_append_right _ List.mem_cons_self

theorem head_ne_augmentedStart_of_mem_rules {r : Rule} (hr : r ∈ g.rulebook.rules) : r.head ≠ augmentedStart := by
  obtain ⟨e, he, rfl⟩ := List.mem_map.mp hr
  intro h
  exact (g.rulebook.unreserved e he).1 (.inr (congrArg NonTerminal.name h))

/-- The augmented production alone has the augmented start for its head. -/
theorem head_eq_augmentedStart_iff (hp : p ∈ g.productions) : p.head = augmentedStart ↔ p = g.augmented := by
  refine ⟨fun h => ?_, fun h => by rw [h]; rfl⟩
  rcases eq_augmented_or_mem_rules hp with rfl | hr
  · rfl
  · exact absurd h (head_ne_augmentedStart_of_mem_rules hr)

theorem number_eq_zero_iff (hp : p ∈ g.productions) : p.number = 0 ↔ p = g.augmented :=
  ⟨fun h => eq_of_number_eq hp augmented_mem h, fun h => by rw [h]; rfl⟩

/-- The productions behind the first one are those that come from rules. -/
theorem mem_tail_iff : p ∈ g.productions.tail ↔ p ∈ g.productions ∧ p ≠ g.augmented := by
  constructor
  · intro hp
    have hr : p.toRule ∈ g.rulebook.rules := tail_productions_map ▸ List.mem_map_of_mem hp
    refine ⟨List.mem_of_mem_tail hp, ?_⟩
    rintro rfl
    exact head_ne_augmentedStart_of_mem_rules hr rfl
  · rintro ⟨hp, hne⟩
    rw [productions_eq_cons] at hp
    exact (List.mem_cons.mp hp).resolve_left hne

/-- A non-terminal with rules is the head of a production behind the first one. -/
theorem exists_mem_tail_of_mem_nonterminals {n : NonTerminal} (hn : n ∈ g.nonterminals) :
    ∃ p ∈ g.productions.tail, p.head = n := by
  obtain ⟨r, hr, rfl⟩ := Rulebook.mem_heads.mp hn
  rw [← tail_productions_map] at hr
  obtain ⟨p, hp, rfl⟩ := List.mem_map.mp hr
  exact ⟨p, hp, rfl⟩

theorem number_ne_zero_of_mem_tail (hp : p ∈ g.productions.tail) : p.number ≠ 0 := by
  obtain ⟨hp, hne⟩ := mem_tail_iff.mp hp
  exact fun h => hne ((number_eq_zero_iff hp).mp h)

/-- Two productions with the same head and body are the same: no rule is given twice. -/
theorem eq_of_toRule_eq (hp : p ∈ g.productions) (hq : q ∈ g.productions) (h : p.toRule = q.toRule) : p = q := by
  by_cases ha : p.head = augmentedStart
  · have hb : q.head = augmentedStart := by rw [← h]; exact ha
    rw [(head_eq_augmentedStart_iff hp).mp ha, (head_eq_augmentedStart_iff hq).mp hb]
  · have hb : q.head ≠ augmentedStart := by rw [← h]; exact ha
    have hp' : p ∈ g.productions.tail := mem_tail_iff.mpr ⟨hp, fun e => ha (by rw [e]; rfl)⟩
    have hq' : q ∈ g.productions.tail := mem_tail_iff.mpr ⟨hq, fun e => hb (by rw [e]; rfl)⟩
    have hn : (g.productions.tail.map fun p => p.toRule).Nodup := by
      rw [tail_productions_map]
      exact g.rulebook.nodup
    exact List.inj_on_of_nodup_map hn hp' hq' h

end CanonicalLR.Grammar
