import CanonicalLR.Proofs.Automaton.Collection
import CanonicalLR.Proofs.Automaton.Construction
import Mathlib.Data.Prod.Lex
import Mathlib.Order.Bounds.Basic
import Mathlib.Order.WellFounded

/-!
# States are numbered as they are found

Every transition of the canonical automaton has a place: the number of the state that it leaves, and the number of its
symbol among those after the dots of that state. Places are ordered lexicographically, and this is the order in which
transitions are written.

A state other than the first is found at the first of the places of the transitions that lead to it. That place belongs
to a state with a smaller number, and states are numbered in the order of the places at which they are found
(`isNumberedInOrder_canonicalAutomaton`). All this comes from the queue that finds the states: it sees them in the order
of their first places among the targets of the states that it has seen (`WorkList.inOrder_of_endsAfter`).
-/

namespace CanonicalLR

/-! ## Members with places -/

section Places

variable {β γ : Type} {f : β → List γ} {bs : List β} {c : γ} {d : Nat ×ₗ Nat}

/-- The members of the lists that belong to the members of a list, each with the numbers of the two. -/
def withPlaces (f : β → List γ) (bs : List β) : List ((Nat ×ₗ Nat) × γ) :=
  bs.zipIdx.flatMap fun b => (f b.1).zipIdx.map fun c => (toLex (b.2, c.2), c.1)

theorem mem_withPlaces_iff :
    (d, c) ∈ withPlaces f bs ↔ ∃ b, bs[(ofLex d).1]? = some b ∧ (f b)[(ofLex d).2]? = some c := by
  simp only [withPlaces, List.mem_flatMap, List.mem_map, Prod.exists, List.mem_zipIdx_iff_getElem?, Prod.mk.injEq]
  constructor
  · rintro ⟨b, i, hb, c, k, hc, rfl, rfl⟩
    exact ⟨b, hb, hc⟩
  · rintro ⟨b, hb, hc⟩
    exact ⟨b, _, hb, c, _, hc, rfl, rfl⟩

theorem map_snd_withPlaces : (withPlaces f bs).map Prod.snd = bs.flatMap f := by
  have hinner : ∀ b : β × Nat, ((f b.1).zipIdx.map fun c => (toLex (b.2, c.2), c.1)).map Prod.snd = f b.1 := by
    intro b
    rw [List.map_map]
    exact List.zipIdx_map_fst 0 (f b.1)
  rw [withPlaces, List.map_flatMap]
  simp only [hinner]
  rw [← List.flatMap_map, List.zipIdx_map_fst]

/-- They stand in the order of their numbers. -/
theorem pairwise_withPlaces : (withPlaces f bs).Pairwise fun c c' => c.1 < c'.1 := by
  have hnumbers {δ : Type} (xs : List δ) : xs.zipIdx.Pairwise fun x x' => x.2 < x'.2 := by
    rw [← List.pairwise_map (f := Prod.snd), List.zipIdx_map_snd]
    exact List.pairwise_lt_range'
  refine List.pairwise_flatMap.mpr ⟨fun b _ => ?_, (hnumbers bs).imp fun {b b'} hlt => ?_⟩
  · refine List.pairwise_map.mpr ((hnumbers (f b.1)).imp fun {c c'} hlt => ?_)
    exact Prod.Lex.toLex_lt_toLex.mpr (.inr ⟨rfl, hlt⟩)
  · simp only [List.mem_map]
    rintro _ ⟨c, _, rfl⟩ _ ⟨c', _, rfl⟩
    exact Prod.Lex.toLex_lt_toLex.mpr (.inl hlt)

end Places

/-! ## Places of transitions -/

variable {α : Type} {g : Grammar α} {n m : Nat} {s : ItemSet} {d e : Nat ×ₗ Nat}

namespace Automaton

/-- The place of a transition: it leaves the state of the first number, over the symbol of the second number among those
after the dots of this state. -/
def StandsAt (a : Automaton α) (k : Int × Key) (d : Nat ×ₗ Nat) : Prop :=
  ∃ (s : ItemSet) (x : Symbol), a.states[(ofLex d).1]? = some s ∧ (s.nextSymbols a.grammar)[(ofLex d).2]? = some x ∧
    k = (((ofLex d).1 : Int), .symbol x)

/-- The places of the transitions that lead to a state. -/
def entrances (a : Automaton α) (m : Nat) : Set (Nat ×ₗ Nat) :=
  {d | ∃ k, a.StandsAt k d ∧ a.transitions.get? k = some (m : Int)}

/-- The states of an automaton are numbered as they are found. -/
structure IsNumberedInOrder (a : Automaton α) : Prop where
  /-- Every state but the first is found at a place, which belongs to a state before it. -/
  found : ∀ m < a.size, m ≠ 0 → ∃ d, IsLeast (a.entrances m) d ∧ (ofLex d).1 < m
  /-- The places at which states are found are in the order of the states. -/
  ordered : ∀ (m n : Nat) (d e : Nat ×ₗ Nat), m ≠ 0 → m < n → n < a.size → IsLeast (a.entrances m) d →
    IsLeast (a.entrances n) e → d < e
  /-- Every transition has a place. -/
  placed : ∀ k ∈ a.transitions.keys, ∃ d, a.StandsAt k d
  /-- The transitions were written in the order of their places. -/
  written : a.transitions.entries.Pairwise fun t t' => ∀ d e, a.StandsAt t.1 d → a.StandsAt t'.1 e → d < e

end Automaton

/-- The places of the transitions to a state are its places among the targets of the states. -/
theorem mem_entrances_iff (hm : (canonicalAutomaton g).states[m]? = some s) :
    d ∈ (canonicalAutomaton g).entrances m ↔ (d, s) ∈ withPlaces (ItemSet.targets g) (canonicalAutomaton g).states := by
  rw [mem_withPlaces_iff]
  constructor
  · rintro ⟨_, ⟨t, x, ht, hx, rfl⟩, hget⟩
    obtain ⟨-, m', hmm, hm'⟩ := (get?_transitions_natCast_iff ht).mp hget
    obtain rfl : m = m' := Int.ofNat.inj hmm
    obtain rfl : s = goto g t.toList x := Option.some.inj (hm.symm.trans hm')
    exact ⟨t, ht, by rw [ItemSet.targets, List.getElem?_map]; exact congrArg (Option.map _) hx⟩
  · rintro ⟨t, ht, hs⟩
    rw [ItemSet.targets, List.getElem?_map, Option.map_eq_some_iff] at hs
    obtain ⟨x, hx, rfl⟩ := hs
    exact ⟨_, ⟨t, x, ht, hx, rfl⟩,
      (get?_transitions_natCast_iff ht).mpr ⟨List.mem_of_getElem? hx, m, rfl, hm⟩⟩

/-- A transition has one place. -/
theorem Automaton.StandsAt.unique {a : Automaton α} {k : Int × Key} (hd : a.StandsAt k d) (he : a.StandsAt k e) :
    d = e := by
  obtain ⟨s, x, hs, hx, rfl⟩ := hd
  obtain ⟨t, y, ht, hy, hk⟩ := he
  obtain ⟨hi, hxy⟩ := Prod.mk.inj hk
  obtain rfl : x = y := Key.symbol.inj hxy
  have hi : (ofLex d).1 = (ofLex e).1 := Int.ofNat.inj hi
  rw [hi] at hs
  obtain rfl : s = t := Option.some.inj (hs.symm.trans ht)
  obtain ⟨hlt, hget⟩ := List.getElem?_eq_some_iff.mp hx
  obtain ⟨hlt', hget'⟩ := List.getElem?_eq_some_iff.mp hy
  exact Prod.ext hi (nodup_distinct.getElem_inj_iff.mp (hget.trans hget'.symm))

/-- The transitions leave the states in order, over the symbols after their dots in order. -/
theorem map_fst_transitions : (canonicalAutomaton g).transitions.entries.map Prod.fst =
    (withPlaces (ItemSet.nextSymbols g) (canonicalAutomaton g).states).map fun c =>
      (((ofLex c.1).1 : Int), Key.symbol c.2) := by
  have hentries : (canonicalAutomaton g).transitions.entries = transitionsOf g (canonicalGraph g) :=
    OrderedMap.entries_ofList nodup_keys_transitionsOf
  have hstates : (canonicalAutomaton g).states = (canonicalGraph g).map Prod.fst := rfl
  rw [hentries, hstates, transitionsOf, withPlaces, List.map_flatMap, List.map_flatMap, List.zipIdx_map,
    List.flatMap_map]
  refine List.flatMap_congr fun b hb => ?_
  have htargets := targets_of_mem_canonicalGraph (List.fst_mem_of_mem_zipIdx hb)
  rw [htargets, ← List.map_prod_left_eq_zip, List.map_map, List.map_map, List.map_map,
    ← List.zipIdx_map_fst 0 (ItemSet.nextSymbols g b.1.1), List.map_map]
  rfl

/-! ## Discovery -/

/-- The states are seen in the order of their first places among the targets of the states. -/
theorem states_inOrder : ∃ w : WorkList ItemSet, (canonicalAutomaton g).states = w.seen ∧
    w.InOrder (ItemSet.targets g) [closure g [initialItem]] w.seen := by
  obtain ⟨n, -, w, hend, hseen⟩ := exists_targets_endsAfter (g := g)
  exact ⟨w, hseen, WorkList.inOrder_of_endsAfter hend⟩

/-- Every state but the first is a target of a state before it. -/
theorem exists_entrance (hm : (canonicalAutomaton g).states[m]? = some s) (h0 : m ≠ 0) :
    ∃ d ∈ (canonicalAutomaton g).entrances m, (ofLex d).1 < m := by
  obtain ⟨w, hseen, h⟩ := states_inOrder (g := g)
  have hstart : s ∉ [closure g [initialItem]] := fun hs =>
    h0 (eq_of_getElem?_states hm (List.mem_singleton.mp hs ▸ getElem?_states_zero))
  obtain ⟨n, t, hlt, ht, hs⟩ := h.found_before m s (hseen ▸ hm) hstart
  obtain ⟨k, hk⟩ := List.mem_iff_getElem?.mp hs
  exact ⟨toLex (n, k), (mem_entrances_iff hm).mpr (mem_withPlaces_iff.mpr ⟨t, hseen ▸ ht, hk⟩), hlt⟩

/-- **A state is found at a place before all places of the transitions to a later state.** -/
theorem exists_entrance_lt {t : ItemSet} (hm : (canonicalAutomaton g).states[m]? = some s) (h0 : m ≠ 0)
    (hn : (canonicalAutomaton g).states[n]? = some t) (hlt : m < n) :
    ∃ d ∈ (canonicalAutomaton g).entrances m, ∀ e ∈ (canonicalAutomaton g).entrances n, d < e := by
  obtain ⟨w, hseen, h⟩ := states_inOrder (g := g)
  let targets := withPlaces (ItemSet.targets g) (canonicalAutomaton g).states
  have hstates : (canonicalAutomaton g).states = distinct (closure g [initialItem] :: targets.map Prod.snd) := by
    rw [map_snd_withPlaces, hseen]
    exact h.seen_eq_distinct
  have hpairwise := @pairwise_distinct _ _ (closure g [initialItem] :: targets.map Prod.snd)
  rw [← hstates, List.pairwise_iff_getElem] at hpairwise
  obtain ⟨hm', hs⟩ := List.getElem?_eq_some_iff.mp hm
  obtain ⟨hn', ht⟩ := List.getElem?_eq_some_iff.mp hn
  obtain ⟨i, hi, hfirst⟩ := hpairwise m n hm' hn' hlt
  rw [hs] at hi
  rw [ht] at hfirst
  cases i with
  | zero => exact absurd (eq_of_getElem?_states hm (hi ▸ getElem?_states_zero)) h0
  | succ i =>
    rw [List.getElem?_cons_succ, List.getElem?_map, Option.map_eq_some_iff] at hi
    obtain ⟨⟨d, _⟩, hd, rfl⟩ := hi
    refine ⟨d, (mem_entrances_iff hm).mpr (List.mem_of_getElem? hd), fun e he => ?_⟩
    obtain ⟨j, hj⟩ := List.mem_iff_getElem?.mp ((mem_entrances_iff hn).mp he)
    have hij : i < j := by
      refine Nat.lt_of_succ_lt_succ (hfirst (j + 1) ?_)
      rw [List.getElem?_cons_succ, List.getElem?_map, hj]
      rfl
    obtain ⟨hi', hd⟩ := List.getElem?_eq_some_iff.mp hd
    obtain ⟨hj', he⟩ := List.getElem?_eq_some_iff.mp hj
    have hde := List.pairwise_iff_getElem.mp pairwise_withPlaces i j hi' hj' hij
    rwa [hd, he] at hde

/-- **The states of the canonical automaton are numbered as they are found**, and its transitions are written in the
order of their places. -/
theorem isNumberedInOrder_canonicalAutomaton (g : Grammar α) : (canonicalAutomaton g).IsNumberedInOrder where
  found m hm h0 := by
    obtain ⟨d, hd, hlt⟩ := exists_entrance (List.getElem?_eq_getElem hm) h0
    obtain ⟨e, he, hleast⟩ := wellFounded_lt.has_min _ ⟨d, hd⟩
    have hle : e ≤ d := not_lt.mp (hleast d hd)
    exact ⟨e, ⟨he, fun d' hd' => not_lt.mp (hleast d' hd')⟩, Nat.lt_of_le_of_lt (Prod.Lex.monotone_fst _ _ hle) hlt⟩
  ordered m n d e h0 hlt hn hd he := by
    obtain ⟨d', hd', hlt'⟩ := exists_entrance_lt (List.getElem?_eq_getElem (Nat.lt_trans hlt hn)) h0
      (List.getElem?_eq_getElem hn) hlt
    exact lt_of_le_of_lt (hd.2 hd') (hlt' e he.1)
  placed k hk := by
    rw [OrderedMap.keys, map_fst_transitions, List.mem_map] at hk
    obtain ⟨⟨d, x⟩, hc, rfl⟩ := hk
    obtain ⟨s, hs, hx⟩ := mem_withPlaces_iff.mp hc
    exact ⟨d, s, x, hs, hx, rfl⟩
  written := by
    have hkeys : ((canonicalAutomaton g).transitions.entries.map Prod.fst).Pairwise fun k l =>
        ∀ d e, (canonicalAutomaton g).StandsAt k d → (canonicalAutomaton g).StandsAt l e → d < e := by
      rw [map_fst_transitions, List.pairwise_map]
      refine pairwise_withPlaces.imp_of_mem fun {c c'} hc hc' hlt d e hd he => ?_
      obtain ⟨s, hs, hx⟩ := mem_withPlaces_iff.mp hc
      obtain ⟨t, ht, hy⟩ := mem_withPlaces_iff.mp hc'
      rwa [hd.unique ⟨s, _, hs, hx, rfl⟩, he.unique ⟨t, _, ht, hy, rfl⟩]
    exact List.pairwise_map.mp hkeys

end CanonicalLR
