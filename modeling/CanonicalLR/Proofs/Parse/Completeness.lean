import CanonicalLR.Proofs.Parse.Run
import CanonicalLR.Proofs.Table.Acceptance

/-!
# A parser finds every tree that no conflict disputes

A parser shifts whatever it can. So it misses a tree only if a conflict rejects one of the reductions of the tree, on
the terminal that comes behind the node. If none does (`Tree.IsUndisputed`), a parser that reads the leaves of a tree of
a symbol, standing where an item has the symbol after its dot, puts the tree on its stack (`IsTree.leads`). The
induction is over trees and forests, and carries the item whose body the forest continues: after each tree it has moved
over one symbol, and its lookahead is the terminal that comes behind the forest.

Without conflicts no tree is disputed. Hence the parser returns every tree of the start symbol on its leaves, accepts
every sentence, and no two trees have the same leaves (`parse?_complete`).
-/

namespace CanonicalLR

variable {α τ : Type} {g : Grammar α}

/-! ## Reading tokens -/

/-- Tokens stand for declared terminals, one for one. -/
def Grammar.Reads (g : Grammar α) (tokens : List (Option (Token τ))) (w : List Terminal) : Prop :=
  Spells tokens w ∧ ∀ t ∈ w, t ∈ g.vocabulary.terminals

theorem Grammar.Reads.append {us vs : List (Option (Token τ))} {u v : List Terminal} (hu : g.Reads us u)
    (hv : g.Reads vs v) : g.Reads (us ++ vs) (u ++ v) := by
  refine ⟨hu.1.append hv.1, fun t ht => ?_⟩
  rcases List.mem_append.mp ht with ht | ht
  · exact hu.2 t ht
  · exact hv.2 t ht

/-- The leaves of trees of defined symbols are read as what the symbols yield. -/
theorem AreTrees.exists_reads {ss : List Symbol} {ts : List (Tree α τ)} (h : AreTrees g ss ts)
    (hss : ∀ s ∈ ss, Defined g.vocabulary g.rulebook s) : ∃ w, g.Reads (forestLeaves ts) w ∧ g.Yields ss w := by
  obtain ⟨w, hw, hy⟩ := h.exists_yields
  refine ⟨w, ⟨hw, fun t ht => ?_⟩, hy⟩
  exact (Grammar.derives_iff_yields.mpr hy).defined hss _ (List.mem_map_of_mem ht)

/-- The first of the tokens, or else their end, is looked at as the terminal that comes next. -/
theorem classify_lookahead {c : Config α τ} {w : List Terminal} (h : g.Reads c.input w) :
    (canonicalAutomaton g).table.classify c.lookahead = .ok (some (w.headD endMark)) := by
  obtain ⟨hs, hw⟩ := h
  unfold Config.lookahead
  cases hin : c.input with
  | nil =>
    rw [hin] at hs
    cases hs
    rfl
  | cons o rest =>
    rw [hin] at hs
    cases hs with
    | @cons _ t _ w hot _ =>
      cases o with
      | none => cases hot
      | some token => exact ParsingTable.classify_some_iff.mpr ⟨hw t List.mem_cons_self, hot⟩

/-! ## What the table does -/

/-- At the end of a trail a production is completed on the lookahead of its item, unless a conflict rejects that. -/
theorem Trail.actionOn_of_completion {i : Int} {is : List Int} {xs : List Symbol} (h : Trail g (i :: is) xs)
    {p : Production α} (hp : p ∈ g.productions) {t : Terminal}
    (hit : p.item p.body.length t ∈ itemsAfter g xs.reverse) {o : Option (Token τ)}
    (ho : (canonicalAutomaton g).table.classify o = .ok (some t))
    (hr : ¬(canonicalAutomaton g).table.Rejects t (.completing p.number)) :
    (canonicalAutomaton g).table.actionOn i o = .ok (some (.completing p.number)) := by
  obtain ⟨n, rfl, hn⟩ := h.exists_state
  have ht : t ∈ g.terminals := mem_terminals_of_item_mem (List.mem_of_getElem? hn) hp hit
  refine ParsingTable.actionOn_eq_some_iff.mpr ⟨t, ho, get?_action_of_not_rejects hn ht ?_ hr⟩
  exact (mem_offered_canonical_iff hn).mpr (.inl ⟨p, hp, hit, rfl⟩)

/-- At the end of a trail a terminal after a dot is shifted. -/
theorem Trail.actionOn_of_mem_nextSymbols {i : Int} {is : List Int} {xs : List Symbol} (h : Trail g (i :: is) xs)
    {t : Terminal} (hx : .terminal t ∈ (itemsAfter g xs.reverse).nextSymbols g) {o : Option (Token τ)}
    (ho : (canonicalAutomaton g).table.classify o = .ok (some t)) :
    ∃ j, (canonicalAutomaton g).table.actionOn i o = .ok (some (.shift j)) ∧
      Trail g (j :: i :: is) (.terminal t :: xs) := by
  obtain ⟨n, rfl, hn⟩ := h.exists_state
  obtain ⟨m, hm, hstate⟩ := exists_transition hn hx
  have ht : t ∈ g.terminals := by
    obtain ⟨q, hq, hb⟩ := exists_mem_body_of_mem_nextSymbols (List.mem_of_getElem? hn) hx
    exact Grammar.mem_terminals_of_mem_body hq hb
  refine ⟨m, ?_, h.push hm⟩
  refine ParsingTable.actionOn_eq_some_iff.mpr ⟨t, ho, get?_action_of_shift hn ht ?_⟩
  exact (mem_offered_canonical_iff hn).mpr (.inr ⟨hx, m, rfl, hstate⟩)

/-! ## Trees that are not disputed -/

mutual

/-- No conflict rejects a reduction of the tree on the terminal behind the node, where the stream goes on with `rest`
behind the tree. -/
def Tree.IsUndisputed (table : ParsingTable α) : Tree α τ → List (Option (Token τ)) → Prop
  | .leaf _, _ => True
  | .node p children, rest => ForestIsUndisputed table children rest ∧
      ∀ t, table.classify rest.head?.join = .ok (some t) → ¬table.Rejects t (.completing p.number)

/-- No conflict rejects a reduction of the trees on the terminal behind the node. -/
def ForestIsUndisputed (table : ParsingTable α) : List (Tree α τ) → List (Option (Token τ)) → Prop
  | [], _ => True
  | t :: ts, rest => t.IsUndisputed table (forestLeaves ts ++ rest) ∧ ForestIsUndisputed table ts rest

end

mutual

/-- Without conflicts no tree is disputed. -/
theorem Tree.isUndisputed_of_conflicts_eq_nil {table : ParsingTable α} (hc : table.conflicts = []) :
    ∀ (t : Tree α τ) (rest : List (Option (Token τ))), t.IsUndisputed table rest
  | .leaf _, _ => trivial
  | .node _ children, rest => ⟨forestIsUndisputed_of_conflicts_eq_nil hc children rest, fun _ _ =>
      ParsingTable.not_rejects_of_conflicts_eq_nil hc⟩

theorem forestIsUndisputed_of_conflicts_eq_nil {table : ParsingTable α} (hc : table.conflicts = []) :
    ∀ (ts : List (Tree α τ)) (rest : List (Option (Token τ))), ForestIsUndisputed table ts rest
  | [], _ => trivial
  | t :: ts, rest => ⟨t.isUndisputed_of_conflicts_eq_nil hc _, forestIsUndisputed_of_conflicts_eq_nil hc ts rest⟩

end

/-! ## Trees -/

mutual

/-- **A parser that reads the leaves of a tree puts the tree on its stack**, if no conflict disputes the tree. -/
theorem IsTree.leads : ∀ {t : Tree α τ} {s : Symbol} {c : Config α τ} {xs : List Symbol}
    {rest : List (Option (Token τ))} {w : List Terminal}, IsTree g s t →
    t.IsUndisputed (canonicalAutomaton g).table rest → Along g c xs →
    s ∈ (itemsAfter g xs.reverse).nextSymbols g →
    (∀ q ∈ g.productions, s = .nonterminal q.head → q.item 0 (w.headD endMark) ∈ itemsAfter g xs.reverse) →
    c.input = t.leaves ++ rest → g.Reads rest w →
    ∃ j, (canonicalAutomaton g).table.Leads c ⟨j, c.state :: c.below, t :: c.trees, rest⟩ ∧
      Along g ⟨j, c.state :: c.below, t :: c.trees, rest⟩ (s :: xs)
  | .leaf token, s, c, xs, rest, w, h, _, hac, hs, _, hin, _ => by
    rw [IsTree] at h
    obtain ⟨t, rfl, ht⟩ := h
    have hl : c.lookahead = token := by
      rw [Config.lookahead, hin]
      rfl
    have htail : c.input.tail = rest := by
      rw [hin]
      rfl
    obtain ⟨n, hstate, hn⟩ := hac.trail.exists_state
    obtain ⟨q, hq, hb⟩ := exists_mem_body_of_mem_nextSymbols (List.mem_of_getElem? hn) hs
    have hclass : (canonicalAutomaton g).table.classify c.lookahead = .ok (some t) := by
      rw [hl]
      cases token with
      | none => cases ht
      | some token => exact ParsingTable.classify_some_iff.mpr ⟨Grammar.defined_of_mem_body hq hb, ht⟩
    obtain ⟨j, ha, hj⟩ := hac.trail.actionOn_of_mem_nextSymbols hs hclass
    obtain ⟨_, hstep, _, hnext⟩ := hac.step_of_shift hclass (Grammar.ne_endMark_of_mem_body hq hb) ha hj
    rw [Config.afterShift, hl, htail] at hstep hnext
    exact ⟨j, .single hstep, hnext⟩
  | .node p children, s, c, xs, rest, w, h, hu, hac, hs, hq, hin, hw => by
    rw [IsTree] at h
    rw [Tree.IsUndisputed] at hu
    obtain ⟨hp, rfl, h⟩ := h
    have hp' := List.mem_of_mem_tail hp
    have hstart : p.item ([] : List Symbol).length (w.headD endMark) ∈ itemsAfter g xs.reverse := hq p hp' rfl
    obtain ⟨c', hleads, hin', htrees, hdrop, hac', hit⟩ := h.leads hu.1 hp' rfl hac hstart hin hw
    have hclass : (canonicalAutomaton g).table.classify c'.lookahead = .ok (some (w.headD endMark)) :=
      classify_lookahead (by rwa [hin'])
    have hrest := hclass
    rw [Config.lookahead, hin'] at hrest
    have ha := hac'.trail.actionOn_of_completion hp' hit hclass (hu.2 _ hrest)
    rw [completing_of_ne_zero (Grammar.number_ne_zero_of_mem_tail hp)] at ha
    obtain ⟨j, i, is, hdrop', hstep, _, hnext⟩ := hac'.step_of_reduce hp hs ha
    rw [hdrop] at hdrop'
    obtain ⟨rfl, rfl⟩ := List.cons.inj hdrop'
    have hlen : children.length = p.body.length := h.length_eq
    have hafter : c'.afterReduce p j c.state c.below = ⟨j, c.state :: c.below, .node p children :: c.trees, rest⟩ := by
      rw [Config.afterReduce, htrees, hin', ← hlen, ← List.length_reverse, List.take_left, List.drop_left,
        List.reverse_reverse]
    rw [hafter] at hstep hnext
    exact ⟨j, hleads.tail hstep, hnext⟩

/-- A parser that reads the leaves of a forest puts its trees on its stack, and moves over the symbols. -/
theorem AreTrees.leads : ∀ {ts : List (Tree α τ)} {ss : List Symbol} {c : Config α τ} {xs a : List Symbol}
    {rest : List (Option (Token τ))} {w : List Terminal} {p : Production α}, AreTrees g ss ts →
    ForestIsUndisputed (canonicalAutomaton g).table ts rest →
    p ∈ g.productions → p.body = a ++ ss → Along g c xs →
    p.item a.length (w.headD endMark) ∈ itemsAfter g xs.reverse →
    c.input = forestLeaves ts ++ rest → g.Reads rest w →
    ∃ c', (canonicalAutomaton g).table.Leads c c' ∧ c'.input = rest ∧ c'.trees = ts.reverse ++ c.trees ∧
      (c'.state :: c'.below).drop ss.length = c.state :: c.below ∧ Along g c' (ss.reverse ++ xs) ∧
      p.item p.body.length (w.headD endMark) ∈ itemsAfter g (ss.reverse ++ xs).reverse
  | [], ss, c, xs, a, rest, w, p, h, _, hp, hb, hac, hit, hin, _ => by
    obtain rfl := areTrees_nil.mp h
    rw [List.append_nil] at hb
    rw [← hb] at hit
    exact ⟨c, .refl, hin, rfl, rfl, hac, hit⟩
  | t :: ts, ss, c, xs, a, rest, w, p, h, hu, hp, hb, hac, hit, hin, hw => by
    rw [AreTrees] at h
    rw [ForestIsUndisputed] at hu
    obtain ⟨s, ss, rfl, ht, hts⟩ := h
    have hdef := List.forall_mem_of_forall_mem_cons (Grammar.defined_of_body_eq_append hp hb)
    obtain ⟨v, hv, hy⟩ := hts.exists_reads hdef
    have hnext : (p.item a.length (w.headD endMark)).next g = some s := next_item_of_body hp hb
    have hs : s ∈ (itemsAfter g xs.reverse).nextSymbols g := mem_nextSymbols_iff.mpr ⟨_, hit, hnext⟩
    have hcalled : ∀ q ∈ g.productions, s = .nonterminal q.head →
        q.item 0 ((v ++ w).headD endMark) ∈ itemsAfter g xs.reverse := by
      rintro q hq rfl
      exact item_mem_itemsAfter_of_follow hp hq hb hit (Grammar.mayFollow_of_yields hy)
    rw [forestLeaves, List.append_assoc] at hin
    obtain ⟨j, hleads, hac'⟩ := ht.leads hu.1 hac hs hcalled hin (hv.append hw)
    have hit' : p.item (a ++ [s]).length (w.headD endMark) ∈ itemsAfter g (s :: xs).reverse := by
      rw [List.reverse_cons, itemsAfter_append_singleton, ← advance_item_length]
      exact advance_mem_goto hit hnext
    obtain ⟨c', hleads', hin', htrees, hdrop, hac'', hit''⟩ := hts.leads hu.2 hp (by rw [hb]; simp) hac' hit' rfl hw
    refine ⟨c', hleads.trans hleads', hin', by rw [htrees]; simp, ?_, by simpa using hac'', by simpa using hit''⟩
    rw [List.length_cons, ← List.drop_drop, hdrop]
    rfl

end

/-! ## Sentences -/

/-- **The parser returns a tree of the start symbol when it reads the leaves**, if no conflict disputes the tree. -/
theorem exists_parse?_of_isUndisputed {t : Tree α τ} (h : IsTree g (.nonterminal g.start) t)
    (hu : t.IsUndisputed (canonicalAutomaton g).table []) :
    ∃ n, (canonicalAutomaton g).table.parse? n t.leaves = some (.accepted t, t.leaves.length) := by
  have hforest : AreTrees g g.augmented.body [t] := areTrees_cons.mpr ⟨h, areTrees_nil.mpr rfl⟩
  have hforestu : ForestIsUndisputed (canonicalAutomaton g).table [t] [] := ⟨hu, trivial⟩
  have hit : g.augmented.item ([] : List Symbol).length (([] : List Terminal).headD endMark) ∈
      itemsAfter g ([] : List Symbol).reverse := mem_closure_of_mem List.mem_cons_self
  have hin : (Config.initial (α := α) t.leaves).input = forestLeaves [t] ++ [] := by
    simp [Config.initial, forestLeaves]
  obtain ⟨c, hleads, hend, htrees, _, hac, hlast⟩ :=
    hforest.leads hforestu Grammar.augmented_mem rfl along_initial hit hin ⟨.nil, by simp⟩
  have hclass : (canonicalAutomaton g).table.classify c.lookahead = .ok (some endMark) := by
    rw [Config.lookahead, hend]
    rfl
  have haccept : ¬(canonicalAutomaton g).table.Rejects endMark (.completing g.augmented.number) := by
    rintro ⟨conflict, hmem, -, hrejected⟩
    exact rejected_ne_accept hmem hrejected
  have ha := hac.trail.actionOn_of_completion Grammar.augmented_mem hlast hclass haccept
  obtain ⟨t', _, htrees', _, hstep⟩ := Along.step_of_accept hac hclass ha
  obtain rfl : t = t' := by
    rw [htrees] at htrees'
    simpa [Config.initial] using htrees'
  obtain ⟨n, hn⟩ := hleads.exists_run hstep
  refine ⟨n, ?_⟩
  rw [ParsingTable.parse?, hn]
  simp [Config.taken, hend]

/-- Without conflicts the parser returns every tree of the start symbol when it reads the leaves. -/
theorem exists_parse?_of_isTree (hc : (canonicalAutomaton g).table.conflicts = []) {t : Tree α τ}
    (h : IsTree g (.nonterminal g.start) t) :
    ∃ n, (canonicalAutomaton g).table.parse? n t.leaves = some (.accepted t, t.leaves.length) :=
  exists_parse?_of_isUndisputed h (t.isUndisputed_of_conflicts_eq_nil hc [])

/-- **Without conflicts every tree is found, every sentence is accepted, and no two trees have the same leaves.** -/
theorem parse?_complete (hc : (canonicalAutomaton g).table.conflicts = []) :
    (∀ t : Tree α τ, IsTree g (.nonterminal g.start) t →
      ∃ n, (canonicalAutomaton g).table.parse? n t.leaves = some (.accepted t, t.leaves.length)) ∧
    (∀ (w : List Terminal) (tokens : List (Option (Token τ))),
      g.Derives [.nonterminal g.start] (w.map Symbol.terminal) → Spells tokens w →
      ∃ n t, (canonicalAutomaton g).table.parse? n tokens = some (.accepted t, tokens.length) ∧
        IsTree g (.nonterminal g.start) t ∧ t.leaves = tokens) ∧
    (∀ t t' : Tree α τ, IsTree g (.nonterminal g.start) t → IsTree g (.nonterminal g.start) t' →
      t.leaves = t'.leaves → t = t') := by
  refine ⟨fun t ht => exists_parse?_of_isTree hc ht, fun w tokens hd hw => ?_, fun t t' ht ht' he => ?_⟩
  · obtain ⟨t, ht, rfl⟩ := exists_isTree_of_derives hd hw
    obtain ⟨n, hn⟩ := exists_parse?_of_isTree hc ht
    exact ⟨n, t, hn, ht, rfl⟩
  · obtain ⟨n, hn⟩ := exists_parse?_of_isTree hc ht
    obtain ⟨n', hn'⟩ := exists_parse?_of_isTree hc ht'
    rw [← he] at hn'
    exact Outcome.accepted.inj (Prod.mk.inj (ParsingTable.parse?_unique hn hn')).1

namespace Brackets

/-- The tree of a list without items. -/
def emptyList : Tree Unit String :=
  .node ⟨⟨list, [opening, items, closing]⟩, 1, none⟩
    [.leaf (some (.ofName "(")), .node ⟨⟨items, []⟩, 2, none⟩ [], .leaf (some (.ofName ")"))]

theorem isTree_emptyList : IsTree grammar (.nonterminal list) emptyList := by
  have hlist : ⟨⟨list, [opening, items, closing]⟩, 1, none⟩ ∈ grammar.productions.tail := .head _
  have hitems : ⟨⟨items, []⟩, 2, none⟩ ∈ grammar.productions.tail := .tail _ (.head _)
  rw [emptyList, IsTree]
  refine ⟨hlist, rfl, ?_⟩
  simp only [areTrees_cons, areTrees_nil, IsTree, and_true]
  exact ⟨⟨opening, rfl, rfl⟩, hitems, ⟨closing, rfl, rfl⟩⟩

set_option maxRecDepth 20000 in
/-- The brackets alone are read as a list without items, and as nothing else. -/
theorem parse?_emptyList :
    (∃ n, (canonicalAutomaton grammar).table.parse? n emptyList.leaves = some (.accepted emptyList, 2)) ∧
      ∀ t : Tree Unit String, IsTree grammar (.nonterminal list) t → t.leaves = emptyList.leaves → t = emptyList := by
  have hc : (canonicalAutomaton grammar).table.conflicts = [] := by decide +kernel
  obtain ⟨htree, _, hunique⟩ := parse?_complete (g := grammar) (τ := String) hc
  exact ⟨htree emptyList isTree_emptyList, fun t ht => hunique t emptyList ht isTree_emptyList⟩

end Brackets

end CanonicalLR
