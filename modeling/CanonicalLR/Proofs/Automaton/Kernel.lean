import CanonicalLR.Proofs.Item.Union

/-!
# A state is given by its kernel

Every state but the first is a goto from a state (`eq_initial_or_eq_goto`). So its kernel is made of items that were
moved over a symbol, and it is the closure of them; the kernel of the first state is the initial item. In both cases
all else was called for, so that a state is the closure of its kernel (`closure_kernel`), and the kernel tells states
apart. As no dot of the initial item has moved, no goto leads back to the first state.
-/

namespace CanonicalLR

variable {α : Type} {g : Grammar α} {n m : Nat} {s t : ItemSet} {items : List Item} {it : Item} {x : Symbol}

/-- The items of a state are placed. -/
theorem isPlaced_of_mem_states (hs : s ∈ (canonicalAutomaton g).states) : ∀ it ∈ s, it.IsPlaced g := by
  intro it hit
  obtain ⟨p, hp, k, -, t, -, rfl⟩ := mem_properItems_iff.mp (isProperSet_of_mem_states s hs it hit)
  exact isPlaced_iff.mpr ⟨p, hp, k, t, rfl⟩

/-- A state is the first one, or the goto from some state. -/
theorem eq_initial_or_eq_goto (hs : s ∈ (canonicalAutomaton g).states) : s = closure g [initialItem] ∨
    ∃ t ∈ (canonicalAutomaton g).states, ∃ x ∈ t.nextSymbols g, s = goto g t.toList x := by
  cases mem_states_iff.mp hs with
  | start h => exact .inl (List.mem_singleton.mp h)
  | step ht h =>
    obtain ⟨x, hx, rfl⟩ := List.mem_map.mp h
    exact .inr ⟨_, mem_states_iff.mpr ht, x, hx, rfl⟩

/-! ## Kernels of closures and gotos -/

/-- A closure of items that all belong to its kernel is the closure of its kernel. -/
theorem closure_kernel_closure (h : ∀ it ∈ items, it.IsPlaced g)
    (hk : ∀ it ∈ items, 0 < it.dot ∨ it.production = 0) :
    closure g (closure g items).kernel.toList = closure g items :=
  closure_congr fun it => (mem_kernel_closure_iff h).trans (and_iff_left_of_imp (hk it))

theorem isPlaced_initialItem : ∀ it ∈ [initialItem], it.IsPlaced g := by
  intro it hit
  rw [List.mem_singleton.mp hit]
  exact isPlaced_iff.mpr ⟨g.augmented, Grammar.augmented_mem, 0, endMark, initialItem_eq⟩

/-- The kernel of the first state is the initial item. -/
theorem kernel_initial : (closure g [initialItem]).kernel = .ofList [initialItem] := by
  refine SortedSet.ext_mem fun it => ?_
  rw [mem_kernel_closure_iff isPlaced_initialItem, SortedSet.mem_ofList]
  refine and_iff_left_of_imp fun hit => .inr ?_
  rw [List.mem_singleton.mp hit]
  rfl

/-- The dots of the kernel of a goto have moved. -/
theorem dot_pos_of_mem_kernel_goto (hs : ∀ it ∈ s, it.IsPlaced g) (hit : it ∈ (goto g s.toList x).kernel) :
    0 < it.dot := by
  obtain ⟨source, hm, -, rfl⟩ := (mem_kernel_goto_iff hs).mp hit
  have hd := (hs source hm).2.2.1
  show 0 < source.dot + 1
  omega

/-! ## Kernels of states -/

/-- **A state is the closure of its kernel.** -/
theorem closure_kernel (hs : s ∈ (canonicalAutomaton g).states) : closure g s.kernel.toList = s := by
  rcases eq_initial_or_eq_goto hs with rfl | ⟨t, ht, x, -, rfl⟩
  · refine closure_kernel_closure isPlaced_initialItem fun it hit => .inr ?_
    rw [List.mem_singleton.mp hit]
    rfl
  · have hplaced := isPlaced_of_mem_states ht
    refine closure_kernel_closure (isPlaced_moved hplaced) fun it hit => .inl ?_
    exact dot_pos_of_mem_kernel_goto hplaced ((mem_kernel_goto_iff hplaced).mpr (mem_moved_iff.mp hit))

/-- A state that is not the first is a goto from some state. -/
theorem exists_eq_goto (hn : (canonicalAutomaton g).states[n]? = some s) (h0 : n ≠ 0) :
    ∃ t ∈ (canonicalAutomaton g).states, ∃ x ∈ t.nextSymbols g, s = goto g t.toList x := by
  refine (eq_initial_or_eq_goto (List.mem_of_getElem? hn)).resolve_left ?_
  rintro rfl
  exact h0 (eq_of_getElem?_states hn getElem?_states_zero)

/-- The states of an automaton are given by their kernels. -/
structure Automaton.IsGivenByKernels (a : Automaton α) (g : Grammar α) : Prop where
  /-- A state is the closure of its kernel. -/
  closure_kernel : ∀ s ∈ a.states, closure? g s.kernel.toList = some s
  /-- States with the same kernel are the same state. -/
  unique : ∀ (n m : Nat) (s t : ItemSet), a.states[n]? = some s → a.states[m]? = some t → s.kernel = t.kernel → n = m
  /-- The kernel of the first state is the initial item alone. -/
  first : ∃ s, a.states[0]? = some s ∧ s.kernel.toList = [⟨0, 0, endMark⟩]
  /-- The kernels of the other states are not empty, and all their dots have moved. -/
  others : ∀ (n : Nat) (s : ItemSet), a.states[n]? = some s → n ≠ 0 →
    (∃ it, it ∈ s.kernel) ∧ ∀ it ∈ s.kernel, 0 < it.dot

/-- **The states of the canonical automaton are given by their kernels.** -/
theorem isGivenByKernels_canonicalAutomaton (g : Grammar α) : (canonicalAutomaton g).IsGivenByKernels g where
  closure_kernel s hs := by
    rw [closure?_of_isPlaced fun it hit => isPlaced_of_mem_states hs it (mem_kernel_iff.mp hit).1, closure_kernel hs]
  unique n m s t hn hm hkernel := by
    have hst : s = t := calc
      s = closure g s.kernel.toList := (CanonicalLR.closure_kernel (List.mem_of_getElem? hn)).symm
      _ = closure g t.kernel.toList := by rw [hkernel]
      _ = t := CanonicalLR.closure_kernel (List.mem_of_getElem? hm)
    exact eq_of_getElem?_states hn (hst ▸ hm)
  first := ⟨_, getElem?_states_zero, by rw [kernel_initial]; rfl⟩
  others n s hn h0 := by
    obtain ⟨t, ht, x, hx, rfl⟩ := exists_eq_goto hn h0
    have hplaced := isPlaced_of_mem_states ht
    obtain ⟨source, hs, hnext⟩ := mem_nextSymbols_iff.mp hx
    exact ⟨⟨source.advance, (mem_kernel_goto_iff hplaced).mpr ⟨source, hs, hnext, rfl⟩⟩,
      fun it hit => dot_pos_of_mem_kernel_goto hplaced hit⟩

end CanonicalLR
