import CanonicalLR.Proofs.Automaton.Kernel
import CanonicalLR.Proofs.Grammar.Rebuilding
import CanonicalLR.Proofs.Parse.Soundness
import CanonicalLR.Proofs.Table.Views

/-!
# The symbols that states are entered over

A state that is not the first is a goto, and the dots of its kernel have moved over the symbol of that goto. So all its
items whose dots have moved show one symbol before them (`passed?_of_mem_goto`), and gotos over different symbols are
never the same state, wherever they start from (`eq_of_goto_eq`). Every state but the first therefore has one accessing
symbol, and the states on the stack of a parser tell the symbols of the trees beside them
(`hasAccessingSymbols_canonicalAutomaton`).
-/

namespace CanonicalLR

variable {α τ : Type} {g : Grammar α} {s t : ItemSet} {it : Item} {x y : Symbol} {i j : Int}

/-! ## The symbol before a dot -/

/-- The symbol that stands before the dot of an item, if the dot is not in front. -/
def Item.passed? (g : Grammar α) (it : Item) : Option Symbol :=
  if 0 < it.dot then Position.get? (it.body g) (it.dot - 1) else none

/-- The dot of an item moves over the symbol after it. -/
theorem Item.passed?_advance (h : 0 ≤ it.dot) : it.advance.passed? g = it.next g := by
  have hpos : 0 < it.advance.dot := Int.lt_add_one_of_le h
  rw [passed?, if_pos hpos, next, show it.advance.dot - 1 = it.dot from Int.add_sub_cancel ..]
  rfl

/-- **The dots of a goto have moved over its symbol, if they have moved.** -/
theorem passed?_of_mem_goto (hs : ∀ it ∈ s, it.IsPlaced g) (hit : it ∈ goto g s.toList x) (hdot : 0 < it.dot) :
    it.passed? g = some x := by
  have hkernel : it ∈ (goto g s.toList x).kernel := mem_kernel_iff.mpr ⟨hit, .inl hdot⟩
  obtain ⟨source, hm, hnext, rfl⟩ := (mem_kernel_goto_iff hs).mp hkernel
  rw [Item.passed?_advance (hs source hm).2.2.1, hnext]

/-- **Gotos over different symbols are different.** -/
theorem eq_of_goto_eq (hs : ∀ it ∈ s, it.IsPlaced g) (ht : ∀ it ∈ t, it.IsPlaced g) (hx : x ∈ s.nextSymbols g)
    (h : goto g s.toList x = goto g t.toList y) : x = y := by
  obtain ⟨source, hm, hnext⟩ := mem_nextSymbols_iff.mp hx
  have hit : source.advance ∈ goto g s.toList x := advance_mem_goto hm hnext
  have hdot : 0 < source.advance.dot := Int.lt_add_one_of_le (hs source hm).2.2.1
  exact Option.some.inj ((passed?_of_mem_goto hs hit hdot).symm.trans (passed?_of_mem_goto ht (h ▸ hit) hdot))

/-! ## Transitions -/

/-- The symbol of a transition that leads to a state, if there is one: that of the first such transition. -/
def Automaton.accessing? (a : Automaton α) (j : Int) : Option Symbol :=
  (a.transitions.entries.find? fun e => e.2 = j).bind fun e => e.1.2.symbol?

/-- Transitions to one state are over one symbol. -/
theorem eq_of_get?_transitions {i' : Int} (hx : (canonicalAutomaton g).transitions.get? (i, .symbol x) = some j)
    (hy : (canonicalAutomaton g).transitions.get? (i', .symbol y) = some j) : x = y := by
  obtain ⟨n, m, s, rfl, rfl, hn, hnext, hm⟩ := get?_transitions_iff.mp hx
  obtain ⟨n', m', t, rfl, hmm, hn', -, hm'⟩ := get?_transitions_iff.mp hy
  obtain rfl : m = m' := Int.ofNat.inj hmm
  exact eq_of_goto_eq (isPlaced_of_mem_states (List.mem_of_getElem? hn))
    (isPlaced_of_mem_states (List.mem_of_getElem? hn')) hnext (Option.some.inj (hm.symm.trans hm'))

/-- A transition is over a symbol, to the goto over it. -/
theorem exists_of_get?_transitions {k : Int × Key} (h : (canonicalAutomaton g).transitions.get? k = some j) :
    ∃ (n m : Nat) (s : ItemSet) (x : Symbol), k = ((n : Int), .symbol x) ∧ j = m ∧
      (canonicalAutomaton g).states[n]? = some s ∧ x ∈ s.nextSymbols g ∧
      (canonicalAutomaton g).states[m]? = some (goto g s.toList x) := by
  obtain ⟨n, x, -, rfl⟩ := source_of_mem_transitions (OrderedMap.mem_keys_iff.mpr ⟨j, h⟩)
  obtain ⟨n', m, s, hnn, rfl, hn, hx, hm⟩ := get?_transitions_iff.mp h
  exact ⟨n', m, s, x, by rw [hnn], rfl, hn, hx, hm⟩

/-- The symbol of any transition to a state is found. -/
theorem accessing?_eq (h : (canonicalAutomaton g).transitions.get? (i, .symbol x) = some j) :
    (canonicalAutomaton g).accessing? j = some x := by
  have hentry : ((i, Key.symbol x), j) ∈ (canonicalAutomaton g).transitions.entries := OrderedMap.get?_eq_some_iff.mp h
  unfold Automaton.accessing?
  cases hfind : (canonicalAutomaton g).transitions.entries.find? fun e => e.2 = j with
  | none => exact absurd (decide_eq_true rfl) (List.find?_eq_none.mp hfind _ hentry)
  | some e =>
    obtain ⟨k, j'⟩ := e
    obtain rfl : j' = j := by simpa using List.find?_some hfind
    have hk := OrderedMap.get?_eq_some_iff.mpr (List.mem_of_find?_eq_some hfind)
    obtain ⟨n, m, s, y, rfl, -⟩ := exists_of_get?_transitions hk
    rw [eq_of_get?_transitions h hk]
    rfl

/-! ## Symbols on the stack -/

/-- The symbol that a tree stands for: the head of its production, or the terminal that its token names. -/
def Tree.symbol? : Tree α τ → Option Symbol
  | .leaf token => ((token.bind fun token => token.name?).bind fun name => (Terminal.ofName name).toOption).map
      .terminal
  | .node p _ => some (.nonterminal p.head)

theorem IsTree.symbol?_eq {tree : Tree α τ} (h : IsTree g x tree) : tree.symbol? = some x := by
  cases tree with
  | leaf token =>
    rw [IsTree] at h
    obtain ⟨t, rfl, ht⟩ := h
    cases token with
    | none => cases ht
    | some token =>
      have hname : token.name? = some t.name := ht
      simp [Tree.symbol?, hname, Terminal.ofName_name, Except.toOption]
  | node p children =>
    rw [IsTree] at h
    rw [h.2.1]
    rfl

theorem AreTrees.map_symbol?_eq {ss : List Symbol} {trees : List (Tree α τ)} (h : AreTrees g ss trees) :
    trees.map Tree.symbol? = ss.map some := by
  induction trees generalizing ss with
  | nil =>
    rw [areTrees_nil.mp h]
    rfl
  | cons tree trees ih =>
    rw [AreTrees] at h
    obtain ⟨s, ss, rfl, ht, h⟩ := h
    rw [List.map_cons, List.map_cons, ht.symbol?_eq, ih h]

/-- The states along a path, apart from the first one, tell its symbols. -/
theorem Trail.map_accessing?_eq {is : List Int} {xs : List Symbol} (h : Trail g is xs) :
    is.dropLast.map (canonicalAutomaton g).accessing? = xs.map some := by
  induction h with
  | start => rfl
  | push _ hj ih =>
    rw [List.dropLast_cons_cons, List.map_cons, List.map_cons, accessing?_eq hj, ih]

/-- **The states on the stack tell the symbols of the trees.** -/
theorem Along.map_symbol?_eq {c : Config α τ} {xs : List Symbol} (h : Along g c xs) :
    c.trees.map Tree.symbol? = (c.state :: c.below).dropLast.map (canonicalAutomaton g).accessing? := by
  have htrees := h.trees.map_symbol?_eq
  rw [List.map_reverse, List.map_reverse, List.reverse_inj] at htrees
  rw [htrees, h.trail.map_accessing?_eq]

/-- The states of an automaton have accessing symbols. -/
structure Automaton.HasAccessingSymbols (a : Automaton α) (g : Grammar α) : Prop where
  /-- No transition leads to the first state. -/
  ne_zero : ∀ k j, a.transitions.get? k = some j → j ≠ 0
  /-- Into every other state there are transitions, all over one symbol, which stands before all dots there that have
  moved. -/
  accessed : ∀ (m : Nat) (s : ItemSet), a.states[m]? = some s → m ≠ 0 → ∃ x, a.accessing? m = some x ∧
    (∃ i, a.transitions.get? (i, .symbol x) = some (m : Int)) ∧
    (∀ i k, a.transitions.get? (i, k) = some (m : Int) → k = .symbol x) ∧
    ∀ it ∈ s, 0 < it.dot → it.passed? g = some x
  /-- Whatever a parser has read, the states on its stack tell the symbols of the trees beside them. -/
  symbols : ∀ {τ : Type} (stream : List (Option (Token τ))) (c : Config α τ), a.table.Leads (.initial stream) c →
    c.trees.map Tree.symbol? = (c.state :: c.below).dropLast.map a.accessing?

/-- **Every state of the canonical automaton but the first has one accessing symbol.** -/
theorem hasAccessingSymbols_canonicalAutomaton (g : Grammar α) : (canonicalAutomaton g).HasAccessingSymbols g where
  ne_zero k j h := by
    obtain ⟨n, m, s, x, -, rfl, hn, -, hm⟩ := exists_of_get?_transitions h
    exact Int.ofNat_ne_zero.mpr (ne_zero_of_getElem?_goto (List.mem_of_getElem? hn) hm)
  accessed m s hm h0 := by
    obtain ⟨t, ht, x, hx, rfl⟩ := exists_eq_goto hm h0
    obtain ⟨n, hn⟩ := List.mem_iff_getElem?.mp ht
    have hget : (canonicalAutomaton g).transitions.get? ((n : Int), .symbol x) = some (m : Int) :=
      (get?_transitions_natCast_iff hn).mpr ⟨hx, m, rfl, hm⟩
    refine ⟨x, accessing?_eq hget, ⟨n, hget⟩, fun i k hk => ?_,
      fun it => passed?_of_mem_goto (isPlaced_of_mem_states ht)⟩
    obtain ⟨_, _, _, y, he, -⟩ := exists_of_get?_transitions hk
    obtain ⟨rfl, rfl⟩ := Prod.mk.inj he
    rw [eq_of_get?_transitions hk hget]
  symbols stream c hl := by
    obtain ⟨⟨xs, h⟩, -⟩ := exists_along_of_leads hl
    exact h.map_symbol?_eq

end CanonicalLR
