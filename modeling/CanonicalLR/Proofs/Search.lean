import CanonicalLR.Search
import Mathlib.Data.Nat.Init

/-!
# Searches that take the same course

A search that is not cut short does not depend on its bound (`Search.graph_eq_of_le`). If a map takes the nodes of one
search to different nodes of another, and successors to successors in the same order, it takes the whole course of the
first search to that of the second (`Search.graph_map`). Before that, how first occurrences behave under maps.
-/

namespace CanonicalLR

variable {α β : Type} [DecidableEq α] [DecidableEq β]

/-! ## First occurrences -/

theorem fresh_sublist {known xs : List α} : (fresh known xs).Sublist xs := by
  induction xs generalizing known with
  | nil => exact .slnil
  | cons x xs ih =>
    rw [fresh]
    split
    · exact ih.cons x
    · exact ih.cons_cons x

/-- What is not yet known depends only on which of the members are known. -/
theorem fresh_congr {known known' xs : List α} (h : ∀ x ∈ xs, x ∈ known ↔ x ∈ known') :
    fresh known xs = fresh known' xs := by
  induction xs generalizing known known' with
  | nil => rfl
  | cons x xs ih =>
    have htail : ∀ y ∈ xs, y ∈ known ↔ y ∈ known' := fun y hy => h y (List.mem_cons_of_mem x hy)
    have hcons : ∀ y ∈ xs, y ∈ x :: known ↔ y ∈ x :: known' := fun y hy => by
      rw [List.mem_cons, List.mem_cons, htail y hy]
    rw [fresh, fresh, ih htail, ih hcons]
    simp only [h x List.mem_cons_self]

/-- Of two lists, the first one is known when the second is read. -/
theorem fresh_append {known xs ys : List α} : fresh known (xs ++ ys) = fresh known xs ++ fresh (known ++ xs) ys := by
  induction xs generalizing known with
  | nil => simp [fresh]
  | cons x xs ih =>
    rw [List.cons_append, fresh, fresh]
    by_cases hx : x ∈ known
    · have hknown : fresh (known ++ xs) ys = fresh (known ++ x :: xs) ys := fresh_congr fun y _ => by
        simp only [List.mem_append, List.mem_cons]
        grind
      rw [if_pos hx, if_pos hx, ih, hknown]
    · have hknown : fresh (x :: known ++ xs) ys = fresh (known ++ x :: xs) ys :=
        fresh_congr fun y _ => List.perm_middle.symm.mem_iff
      rw [if_neg hx, if_neg hx, ih, hknown, List.cons_append]

/-- What a list adds to the first occurrences in the list before it is what is new in it. -/
theorem distinct_append {xs ys : List α} : distinct (xs ++ ys) = distinct xs ++ fresh (distinct xs) ys := by
  have hknown : fresh (distinct xs) ys = fresh xs ys := fresh_congr fun y _ => mem_distinct
  rw [hknown]
  exact fresh_append

/-- What is not yet known is appended one member at a time. -/
theorem append_fresh_cons {known xs : List α} {x : α} :
    (if x ∈ known then known else known ++ [x]) ++ fresh (if x ∈ known then known else known ++ [x]) xs =
      known ++ fresh known (x :: xs) := by
  rw [fresh]
  split
  · rfl
  · rw [List.append_assoc, List.singleton_append]
    exact congrArg (known ++ x :: ·) (fresh_congr fun y _ => by simp [or_comm])

/-- First occurrences are taken to first occurrences by a map that keeps the members apart. -/
theorem fresh_map {f : α → β} {known xs : List α}
    (hf : ∀ x ∈ known ++ xs, ∀ y ∈ known ++ xs, f x = f y → x = y) :
    fresh (known.map f) (xs.map f) = (fresh known xs).map f := by
  induction xs generalizing known with
  | nil => rfl
  | cons x xs ih =>
    have hmem : f x ∈ known.map f ↔ x ∈ known := by
      refine ⟨fun h => ?_, List.mem_map_of_mem⟩
      obtain ⟨y, hy, he⟩ := List.mem_map.mp h
      exact hf y (by simp [hy]) x (by simp) he ▸ hy
    rw [List.map_cons, fresh, fresh]
    have hknown : ∀ y ∈ (x :: known) ++ xs, y ∈ known ++ x :: xs := fun y hy => List.perm_middle.mem_iff.mpr hy
    by_cases hx : x ∈ known
    · rw [if_pos (hmem.mpr hx), if_pos hx]
      exact ih fun y hy z hz =>
        hf y (hknown y (List.mem_cons_of_mem x hy)) z (hknown z (List.mem_cons_of_mem x hz))
    · rw [if_neg fun h => hx (hmem.mp h), if_neg hx, List.map_cons, ← List.map_cons,
        ih fun y hy z hz => hf y (hknown y hy) z (hknown z hz)]

theorem distinct_map {f : α → β} {xs : List α} (hf : ∀ x ∈ xs, ∀ y ∈ xs, f x = f y → x = y) :
    distinct (xs.map f) = (distinct xs).map f := by
  show fresh (([] : List α).map f) (xs.map f) = (fresh [] xs).map f
  exact fresh_map hf

theorem fresh_filterMap {f : α → Option β} {seen xs : List α} {known : List β}
    (h : ∀ x ∈ seen, ∀ y, f x = some y → y ∈ known) :
    fresh known ((fresh seen xs).filterMap f) = fresh known (xs.filterMap f) := by
  induction xs generalizing seen known with
  | nil => rfl
  | cons x xs ih =>
    rw [fresh, List.filterMap_cons]
    by_cases hx : x ∈ seen
    · rw [if_pos hx, ih h]
      cases hf : f x with
      | none => rfl
      | some y => rw [fresh, if_pos (h x hx y hf)]
    · rw [if_neg hx, List.filterMap_cons]
      cases hf : f x with
      | none =>
        refine ih fun z hz y hy => ?_
        rcases List.mem_cons.mp hz with rfl | hz
        · rw [hf] at hy
          cases hy
        · exact h z hz y hy
      | some y =>
        have hknown : ∀ {known' : List β}, y ∈ known' → (∀ z ∈ known, z ∈ known') →
            ∀ z ∈ x :: seen, ∀ w, f z = some w → w ∈ known' := by
          intro known' hy hsub z hz w hw
          rcases List.mem_cons.mp hz with rfl | hz
          · rw [hf] at hw
            exact Option.some.inj hw ▸ hy
          · exact hsub w (h z hz w hw)
        rw [fresh, fresh]
        split
        · rename_i hy
          exact ih (hknown hy fun _ hz => hz)
        · rw [ih (hknown List.mem_cons_self fun _ hz => List.mem_cons_of_mem y hz)]

/-- The first occurrences of images are those of the images of first occurrences. -/
theorem distinct_filterMap {f : α → Option β} {xs : List α} :
    distinct ((distinct xs).filterMap f) = distinct (xs.filterMap f) :=
  fresh_filterMap fun _ hx => absurd hx List.not_mem_nil

/-- A map that keeps the members apart leaves first occurrences at their places. -/
theorem idxOf_map {f : α → β} {xs : List α} {x : α} (hf : ∀ y ∈ xs, f y = f x → y = x) :
    (xs.map f).idxOf (f x) = xs.idxOf x := by
  induction xs with
  | nil => rfl
  | cons y ys ih =>
    have hy : (f y == f x) = (y == x) := decide_eq_decide.mpr ⟨hf y List.mem_cons_self, congrArg f⟩
    rw [List.map_cons, List.idxOf_cons, List.idxOf_cons, hy, ih fun z hz => hf z (List.mem_cons_of_mem y hz)]

namespace Search

variable {next : α → List α} {nodes starts : List α} {bound : Nat}

omit [DecidableEq α] in
/-- With more starts and more successors, more is reached. -/
theorem Reached.mono {next' : α → List α} {starts' : List α} {x : α} (hs : ∀ x ∈ starts, x ∈ starts')
    (hn : ∀ x, ∀ y ∈ next x, y ∈ next' x) (hx : Reached next starts x) : Reached next' starts' x := by
  induction hx with
  | start h => exact .start (hs _ h)
  | step _ hy ih => exact ih.step (hn _ _ hy)

omit [DecidableEq α] in
/-- What several starts reach together is reached by one of them alone. -/
theorem reached_iff_exists {x : α} : Reached next starts x ↔ ∃ start ∈ starts, Reached next [start] x := by
  constructor
  · intro hx
    induction hx with
    | @start x h => exact ⟨x, h, .start List.mem_cons_self⟩
    | step _ hy ih =>
      obtain ⟨start, hs, hx⟩ := ih
      exact ⟨start, hs, hx.step hy⟩
  · rintro ⟨start, hs, hx⟩
    exact Reached.trans (.start hs) hx

/-! ## The bound -/

/-- A search that visits no more nodes than its bound goes on in the same way if the bound is raised. -/
theorem visit_succ (hnext : ∀ x ∈ nodes, ∀ y ∈ next x, y ∈ nodes) {done : List (α × List α)} {waiting : List α}
    (hnodup : (done.map Prod.fst ++ waiting).Nodup) (hin : ∀ x ∈ done.map Prod.fst ++ waiting, x ∈ nodes)
    (hbound : nodes.length ≤ bound + done.length) :
    visit next (bound + 1) done waiting = visit next bound done waiting := by
  induction bound generalizing done waiting with
  | zero =>
    have hlen := hnodup.length_le_of_subset hin
    simp only [List.length_append, List.length_map] at hlen
    obtain rfl : waiting = [] := List.length_eq_zero_iff.mp (by omega)
    simp [visit]
  | succ bound ih =>
    cases waiting with
    | nil => rfl
    | cons x waiting =>
      rw [visit, visit]
      refine ih (nodup_visited hnodup) (fun y hy => ?_) ?_
      · rcases mem_visited_iff.mp hy with hy | hy
        · exact hin y hy
        · exact hnext x (hin x (by simp)) y hy
      · simp only [List.length_append, List.length_cons, List.length_nil]
        omega

/-- **A search that is not cut short does not depend on its bound.** -/
theorem graph_eq_of_le (h : Covers next nodes starts bound) {bound' : Nat} (hle : bound ≤ bound') :
    graph next bound' starts = graph next bound starts := by
  induction bound', hle using Nat.le_induction with
  | base => rfl
  | succ n hn ih =>
    rw [← ih, graph, graph]
    refine visit_succ h.next_mem ?_ ?_ ?_
    · simpa using nodup_distinct
    · simpa using h.starts_mem
    · simpa using Nat.le_trans h.length_le hn

/-! ## Images -/

/-- A map takes the course of a search to that of another if it keeps the nodes apart and takes successors to successors
in the same order. -/
theorem visit_map {f : α → β} {next' : β → List β} (hnodes : ∀ x ∈ nodes, ∀ y ∈ next x, y ∈ nodes)
    (hf : ∀ x ∈ nodes, ∀ y ∈ nodes, f x = f y → x = y) (hnext : ∀ x ∈ nodes, next' (f x) = (next x).map f) :
    ∀ (bound : Nat) (done : List (α × List α)) (waiting : List α), (∀ e ∈ done, e.1 ∈ nodes) →
      (∀ x ∈ waiting, x ∈ nodes) →
      visit next' bound (done.map fun e => (f e.1, e.2.map f)) (waiting.map f) =
        (visit next bound done waiting).map fun e => (f e.1, e.2.map f)
  | 0, done, waiting, _, hw => by
    rw [visit, visit, List.map_append, List.map_map, List.map_map]
    refine congrArg _ (List.map_congr_left fun x hx => ?_)
    exact congrArg (Prod.mk (f x)) (hnext x (hw x hx))
  | _ + 1, done, [], _, _ => rfl
  | bound + 1, done, x :: waiting, hd, hw => by
    have hx := hw x List.mem_cons_self
    have hknown : ∀ y ∈ (done.map Prod.fst ++ x :: waiting) ++ next x, y ∈ nodes := by
      intro y hy
      simp only [List.mem_append, List.mem_map] at hy
      rcases hy with (⟨e, he, rfl⟩ | hy) | hy
      · exact hd e he
      · exact hw y hy
      · exact hnodes x hx y hy
    have hfresh : fresh ((done.map fun e => (f e.1, e.2.map f)).map Prod.fst ++ f x :: waiting.map f) ((next x).map f) =
        (fresh (done.map Prod.fst ++ x :: waiting) (next x)).map f := by
      rw [← fresh_map fun y hy z hz => hf y (hknown y hy) z (hknown z hz)]
      simp only [List.map_append, List.map_map, List.map_cons]
      rfl
    rw [List.map_cons, visit, visit, hnext x hx, hfresh, ← List.map_append]
    rw [← visit_map hnodes hf hnext bound (done ++ [(x, next x)])]
    · simp
    · intro e he
      rcases List.mem_append.mp he with he | he
      · exact hd e he
      · rw [List.mem_singleton.mp he]
        exact hx
    · intro y hy
      rcases List.mem_append.mp hy with hy | hy
      · exact hw y (List.mem_cons_of_mem x hy)
      · exact hnodes x hx y (mem_fresh.mp hy).1

/-- **Searches that take the same course.** -/
theorem graph_map {f : α → β} {next' : β → List β} {nodes' : List β} {bound' : Nat}
    (h : Covers next nodes starts bound) (h' : Covers next' nodes' (starts.map f) bound')
    (hf : ∀ x ∈ reach next bound starts, ∀ y ∈ reach next bound starts, f x = f y → x = y)
    (hnext : ∀ x ∈ reach next bound starts, next' (f x) = (next x).map f) :
    graph next' bound' (starts.map f) = (graph next bound starts).map fun e => (f e.1, e.2.map f) := by
  obtain ⟨-, hstarts, hclosed⟩ := reach_closed h
  have hdistinct : distinct (starts.map f) = (distinct starts).map f :=
    distinct_map fun x hx y hy => hf x (hstarts x hx) y (hstarts y hy)
  rw [← graph_eq_of_le h' (Nat.le_max_right bound bound'), ← graph_eq_of_le h (Nat.le_max_left bound bound'), graph,
    graph, hdistinct]
  refine visit_map hclosed hf hnext _ [] _ (fun e he => absurd he List.not_mem_nil) fun x hx => ?_
  exact hstarts x (mem_distinct.mp hx)

end Search

end CanonicalLR
