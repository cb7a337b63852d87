import CanonicalLR.Proofs.Automaton.Collection
import CanonicalLR.Proofs.Automaton.Continuation
import CanonicalLR.Proofs.Automaton.Coverage
import CanonicalLR.Proofs.Automaton.Kernel
import CanonicalLR.Proofs.Table.Acceptance

/-!
# The views of a table lose nothing

A table is shown state by state: the actions of a state in order of the terminals, and its targets in order of the
non-terminals. The views look up every symbol of the grammar, so an entry for any other key would not be shown. The
table of the canonical automaton has no such entry (`exists_of_mem_action_keys`, `exists_of_mem_goto_keys`), and what is
collected from the views is the table again (`get?_collected`).

Its entries are also in range. Of the targets this is so because no goto leads back to the first state
(`ne_zero_of_getElem?_goto`). And where every non-terminal derives something, each state expects a terminal: an item
expects what the rest of its body begins with (`expects_of_yields`).
-/

namespace CanonicalLR

open Grammar

variable {α : Type} {g : Grammar α} {n : Nat} {s : ItemSet} {t : Terminal}

/-! ## Collecting from views -/

section Collecting

variable {X ν : Type} (symbols : List X) (key : X → Key) (m : OrderedMap (Int × Key) ν)

/-- The entries that a map has for a state, in the order of the given symbols. -/
def viewOf (state : Int) : List (X × ν) := symbols.filterMap fun x => (m.get? (state, key x)).map fun v => (x, v)

/-- What the views of the first states show, with the state and the symbol of each entry for its key. -/
def shown (view : Int → List (X × ν)) (states : Nat) : List ((Int × Key) × ν) :=
  (List.range states).flatMap fun (n : Nat) => (view n).map fun e => (((n : Int), key e.1), e.2)

/-- The map that is written from what the views of the first states show. -/
def collected (view : Int → List (X × ν)) (states : Nat) : OrderedMap (Int × Key) ν := .ofList (shown key view states)

variable {symbols key m}

theorem mem_viewOf_iff {i : Int} {e : X × ν} :
    e ∈ viewOf symbols key m i ↔ e.1 ∈ symbols ∧ m.get? (i, key e.1) = some e.2 := by
  simp only [viewOf, List.mem_filterMap, Option.map_eq_some_iff]
  constructor
  · rintro ⟨x, hx, v, hv, rfl⟩
    exact ⟨hx, hv⟩
  · rintro ⟨hx, hv⟩
    exact ⟨e.1, hx, e.2, hv, rfl⟩

theorem map_fst_viewOf_sublist {i : Int} : ((viewOf symbols key m i).map Prod.fst).Sublist symbols := by
  unfold viewOf
  induction symbols with
  | nil => exact .slnil
  | cons x xs ih =>
    rw [List.filterMap_cons]
    cases m.get? (i, key x) with
    | none => exact ih.cons x
    | some v => exact ih.cons_cons x

/-- No key is shown twice. -/
theorem nodup_keys_shown (hkey : Function.Injective key) (hsymbols : symbols.Nodup) {states : Nat} :
    ((shown key (viewOf symbols key m) states).map Prod.fst).Nodup := by
  rw [shown, List.map_flatMap, List.nodup_flatMap]
  constructor
  · intro n _
    have hview : ((viewOf symbols key m n).map Prod.fst).Nodup := map_fst_viewOf_sublist.nodup hsymbols
    have hk : ((viewOf symbols key m n).map fun e => (((n : Int), key e.1), e.2)).map Prod.fst =
        ((viewOf symbols key m n).map Prod.fst).map fun x => ((n : Int), key x) := by
      simp [Function.comp_def]
    rw [hk]
    exact hview.map fun x y hxy => hkey (Prod.mk.inj hxy).2
  · refine List.nodup_range.imp fun {n n'} hne => ?_
    intro k hk hk'
    simp only [List.mem_map, exists_exists_and_eq_and] at hk hk'
    obtain ⟨_, _, rfl⟩ := hk
    obtain ⟨_, _, he⟩ := hk'
    exact hne (Int.natCast_inj.mp (Prod.mk.inj he).1.symm)

/-- **What is collected from the views of a map is the map**, if each of its keys is a state with a symbol. -/
theorem get?_collected (hkey : Function.Injective key) (hsymbols : symbols.Nodup) {states : Nat}
    (hm : ∀ k ∈ m.keys, ∃ n < states, ∃ x ∈ symbols, k = ((n : Int), key x)) (k : Int × Key) :
    (collected key (viewOf symbols key m) states).get? k = m.get? k := by
  refine Option.ext fun v => ?_
  rw [collected, OrderedMap.get?_ofList_eq_some_iff (nodup_keys_shown hkey hsymbols)]
  simp only [shown, List.mem_flatMap, List.mem_range, List.mem_map, mem_viewOf_iff]
  constructor
  · rintro ⟨n, _, e, ⟨_, hv⟩, he⟩
    cases he
    exact hv
  · intro hv
    obtain ⟨n, hn, x, hx, rfl⟩ := hm k (OrderedMap.mem_keys_iff.mpr ⟨v, hv⟩)
    exact ⟨n, hn, (x, v), ⟨hx, hv⟩, rfl⟩

end Collecting

/-! ## Keys -/

theorem exists_getElem?_states (hn : n < (canonicalAutomaton g).size) :
    ∃ γ, (canonicalAutomaton g).states[n]? = some (itemsAfter g γ) := by
  obtain ⟨γ, hγ⟩ := exists_itemsAfter_eq (List.getElem_mem hn)
  exact ⟨γ, by rw [← hγ, List.getElem?_eq_getElem hn]⟩

/-- The keys of the targets are states with non-terminals that stand after a dot there. -/
theorem exists_of_mem_goto_keys {k : Int × Key} (hk : k ∈ (canonicalAutomaton g).table.goto.keys) :
    ∃ n < (canonicalAutomaton g).size, ∃ x ∈ g.nonterminals, x ≠ augmentedStart ∧ k = ((n : Int), .nonterminal x) := by
  obtain ⟨e, he, rfl⟩ := List.mem_map.mp hk
  rw [entries_goto, List.mem_flatMap] at he
  obtain ⟨_, hr, he⟩ := he
  obtain ⟨n, s, hn, rfl⟩ := mem_rows_iff.mp hr
  obtain ⟨⟨x, j⟩, hx, rfl⟩ := List.mem_map.mp he
  have hnext := ((get?_outgoing_canonical_iff hn).mp (mem_gotos_iff.mp hx)).1
  obtain ⟨p, hp, hb⟩ := exists_mem_body_of_mem_nextSymbols (List.mem_of_getElem? hn) hnext
  exact ⟨n, (List.getElem?_eq_some_iff.mp hn).1, x, defined_of_mem_body hp hb, ne_augmentedStart_of_mem_body hp hb, rfl⟩

/-! ## Values -/

/-- No goto is the first state. -/
theorem ne_zero_of_getElem?_goto {m : Nat} (hs : s ∈ (canonicalAutomaton g).states) {x : Symbol}
    (hm : (canonicalAutomaton g).states[m]? = some (goto g s.toList x)) : m ≠ 0 := by
  rintro rfl
  have hzero : goto g s.toList x = closure g [initialItem] := Option.some.inj (hm.symm.trans getElem?_states_zero)
  have hkernel : initialItem ∈ (goto g s.toList x).kernel := by
    rw [hzero, kernel_initial, SortedSet.mem_ofList]
    exact List.mem_cons_self
  have hdot := dot_pos_of_mem_kernel_goto (isPlaced_of_mem_states hs) hkernel
  exact absurd hdot (by decide)

/-- A goto has the number of a state that is not the first. -/
theorem bounds_of_getElem?_goto {m : Nat} (hs : s ∈ (canonicalAutomaton g).states) {x : Symbol}
    (hm : (canonicalAutomaton g).states[m]? = some (goto g s.toList x)) :
    1 ≤ (m : Int) ∧ (m : Int) < (canonicalAutomaton g).size := by
  have hne := ne_zero_of_getElem?_goto hs hm
  have hlt : m < (canonicalAutomaton g).size := (List.getElem?_eq_some_iff.mp hm).1
  omega

theorem bounds_of_shift {k : Int × Key} {j : Int} (hk : (canonicalAutomaton g).table.action.get? k = some (.shift j)) :
    1 ≤ j ∧ j < (canonicalAutomaton g).size := by
  obtain ⟨n, t, s, rfl, hn, hact⟩ := exists_offered_of_get?_action hk
  rcases (mem_offered_canonical_iff hn).mp hact with ⟨p, _, _, hshift⟩ | ⟨_, m, hshift, hm⟩
  · exact absurd hshift.symm completing_ne_shift
  · cases hshift
    exact bounds_of_getElem?_goto (List.mem_of_getElem? hn) hm

theorem bounds_of_target {k : Int × Key} {j : Int} (hk : (canonicalAutomaton g).table.goto.get? k = some j) :
    1 ≤ j ∧ j < (canonicalAutomaton g).size := by
  obtain ⟨n, hlt, x, _, _, rfl⟩ := exists_of_mem_goto_keys (OrderedMap.mem_keys_iff.mpr ⟨j, hk⟩)
  have hn := List.getElem?_eq_getElem hlt
  obtain ⟨_, m, rfl, hm⟩ := (get?_goto_canonical_iff hn).mp hk
  exact bounds_of_getElem?_goto (List.mem_of_getElem? hn) hm

/-- A reduction that is offered is by the number of a production. -/
theorem exists_number_of_offered {i : Int} (hn : (canonicalAutomaton g).states[n]? = some s)
    (hact : .reduce i ∈ (canonicalAutomaton g).offered n s t) : ∃ p ∈ g.productions, i = p.number := by
  rcases (mem_offered_canonical_iff hn).mp hact with ⟨p, hp, _, hreduce⟩ | ⟨_, m, hreduce, _⟩
  · have hnumber := ruleNumber?_completing p.number
    rw [← hreduce] at hnumber
    exact ⟨p, hp, Option.some.inj hnumber⟩
  · cases hreduce

/-- A reduction is by a production that comes from a rule. -/
theorem bounds_of_reduce {k : Int × Key} {i : Int}
    (hk : (canonicalAutomaton g).table.action.get? k = some (.reduce i)) : 1 ≤ i ∧ i < g.productions.length := by
  obtain ⟨n, t, s, rfl, hn, hact⟩ := exists_offered_of_get?_action hk
  have hne : i ≠ 0 := fun hi => cellCandidates_offered.no_reduce_zero (hi ▸ hact)
  obtain ⟨p, hp, rfl⟩ := exists_number_of_offered hn hact
  have hlt : p.number < g.productions.length := (List.getElem?_eq_some_iff.mp (getElem?_number hp)).1
  omega

/-! ## What is expected -/

/-- **An item expects what the rest of its body begins with**: the first terminal of a text that the rest yields, or
else the lookahead. -/
theorem expects_of_yields {γ : List Symbol} {a b : List Symbol} {v : List Terminal} {p : Production α}
    (hp : p ∈ g.productions) (hb : p.body = a ++ b) (hit : p.item a.length t ∈ itemsAfter g γ) (hv : g.Yields b v) :
    g.Expects γ ((v ++ [t]).headD endMark) := by
  induction hv generalizing p a t with
  | nil =>
    rw [List.append_nil] at hb
    exact .inl ⟨p, hp, hb ▸ hit⟩
  | terminal _ => exact .inr (mem_nextSymbols_of_item_mem hp hb hit)
  | @nonterminal q b v w hq _ hw ih _ =>
    -- the rest of the body behind the non-terminal tells with which lookahead its productions are called for
    have hfollow : g.MayFollow b t ((w ++ [t]).headD endMark) := mayFollow_of_yields (w := [t]) hw
    have hchild := ih (a := []) hq rfl (item_mem_itemsAfter_of_follow hp hq hb hit hfollow)
    have hhead : (v ++ [(w ++ [t]).headD endMark]).headD endMark = (v ++ w ++ [t]).headD endMark := by
      cases v <;> simp
    rwa [hhead] at hchild

/-- Where every non-terminal derives something, something is expected wherever there is an item. -/
theorem exists_expects (hd : g.underivable = []) {γ : List Symbol} {it : Item} (hit : it ∈ itemsAfter g γ) :
    ∃ t, g.Expects γ t := by
  obtain ⟨p, hp, δ, a, b, t, _, hb, rfl, rfl⟩ := mem_itemsAfter_iff_isCalled.mp hit
  obtain ⟨v, hv⟩ := exists_yields_of_body_eq_append hd hp hb
  exact ⟨_, expects_of_yields hp hb hit hv⟩

/-! ## The table -/

namespace ParsingTable

variable (table : ParsingTable α)

/-- The actions that are collected from the views of all states. -/
def collectedActions : OrderedMap (Int × Key) Action := collected Key.terminal table.actionsFor table.stateCount.toNat

/-- The targets that are collected from the views of all states. -/
def collectedGotos : OrderedMap (Int × Key) Int := collected Key.nonterminal table.gotosFor table.stateCount.toNat

/-- Every entry of a table is shown by the views and is in range, and what is expected in a state are the terminals
with an entry. -/
structure IsWellFormed : Prop where
  /-- Each key of an action is a state and a terminal. -/
  action_keys : ∀ k ∈ table.action.keys, ∃ n : Nat, (n : Int) < table.stateCount ∧
    ∃ t ∈ table.grammar.terminals, k = ((n : Int), .terminal t)
  /-- Each key of a target is a state and a non-terminal with rules. -/
  goto_keys : ∀ k ∈ table.goto.keys, ∃ n : Nat, (n : Int) < table.stateCount ∧
    ∃ x ∈ table.grammar.nonterminals, x ≠ augmentedStart ∧ k = ((n : Int), .nonterminal x)
  /-- The views of the states give back the actions. -/
  actions : ∀ k, table.collectedActions.get? k = table.action.get? k
  /-- The views of the states give back the targets. -/
  gotos : ∀ k, table.collectedGotos.get? k = table.goto.get? k
  /-- A shift leads to a state that is not the first. -/
  shifts : ∀ k j, table.action.get? k = some (.shift j) → 1 ≤ j ∧ j < table.stateCount
  /-- A target is a state that is not the first. -/
  targets : ∀ k j, table.goto.get? k = some j → 1 ≤ j ∧ j < table.stateCount
  /-- A reduction is by a production that comes from a rule. -/
  reductions : ∀ k i, table.action.get? k = some (.reduce i) → 1 ≤ i ∧ i < table.grammar.productions.length
  /-- What is expected in a state are the terminals with an action there, in order of declaration. -/
  expected : ∀ i, table.expected i = table.grammar.terminals.filter fun t => (i, .terminal t) ∈ table.action.keys
  /-- If every non-terminal derives something, every state expects a terminal. -/
  expected_ne_nil : table.grammar.underivable = [] → ∀ n : Nat, (n : Int) < table.stateCount → table.expected n ≠ []

end ParsingTable

/-- **The table of the canonical automaton is well-formed.** -/
theorem compile_isWellFormed (g : Grammar α) :
    ∃ table, (canonicalAutomaton g).compile = .ok table ∧ table.grammar = g ∧ table.IsWellFormed := by
  have hactions : ∀ k ∈ (canonicalAutomaton g).table.action.keys, ∃ n < (canonicalAutomaton g).size,
      ∃ t ∈ g.terminals, k = ((n : Int), .terminal t) := by
    intro k hk
    obtain ⟨n, t, hn, ht, rfl⟩ := mem_action_keys hk
    exact ⟨n, hn, t, ht, rfl⟩
  refine ⟨(canonicalAutomaton g).table, compile_canonicalAutomaton, rfl, ?_⟩
  constructor
  case action_keys =>
    intro k hk
    obtain ⟨n, hn, ht⟩ := hactions k hk
    exact ⟨n, Int.ofNat_lt.mpr hn, ht⟩
  case goto_keys =>
    intro k hk
    obtain ⟨n, hn, hx⟩ := exists_of_mem_goto_keys hk
    exact ⟨n, Int.ofNat_lt.mpr hn, hx⟩
  case actions => exact get?_collected (fun _ _ h => by simpa using h) g.nodup_terminals hactions
  case gotos =>
    refine get?_collected (fun _ _ h => by simpa using h) nodup_distinct fun k hk => ?_
    obtain ⟨n, hn, x, hx, _, rfl⟩ := exists_of_mem_goto_keys hk
    exact ⟨n, hn, x, hx, rfl⟩
  case shifts => exact fun k j hk => bounds_of_shift hk
  case targets => exact fun k j hk => bounds_of_target hk
  case reductions => exact fun k i hk => bounds_of_reduce hk
  case expected =>
    intro i
    rw [ParsingTable.expected_eq_filter]
    refine List.filter_congr fun t _ => ?_
    rw [Bool.eq_iff_iff, decide_eq_true_iff, OrderedMap.mem_keys_iff, Option.isSome_iff_exists]
  case expected_ne_nil =>
    intro hd n hn
    obtain ⟨γ, hγ⟩ := exists_getElem?_states (Int.ofNat_lt.mp hn)
    obtain ⟨it, hit⟩ := exists_item_of_mem_canonical _ (List.mem_of_getElem? hγ)
    obtain ⟨t, ht⟩ := exists_expects hd hit
    exact List.ne_nil_of_mem ((mem_expected_canonical_iff hγ).mpr ht)

namespace Aside

/-- Every non-terminal of the grammar derives something, so no state is without an expected terminal. -/
theorem compile_isWellFormed_aside : grammar.underivable = [] ∧
    ∃ table, (canonicalAutomaton grammar).compile = .ok table ∧ table.IsWellFormed ∧
      ∀ n : Nat, (n : Int) < table.stateCount → table.expected n ≠ [] := by
  have hd : grammar.underivable = [] := by decide
  obtain ⟨table, hcompile, hg, htable⟩ := compile_isWellFormed grammar
  exact ⟨hd, table, hcompile, htable, htable.expected_ne_nil (hg ▸ hd)⟩

/-- Where a non-terminal derives nothing, even the first state may expect no terminal. -/
example : blocked.underivable ≠ [] ∧ (canonicalAutomaton blocked).table.expected 0 = [] := by decide +kernel

end Aside

end CanonicalLR
