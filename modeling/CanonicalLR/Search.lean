import CanonicalLR.Distinct

/-!
# Breadth-first search

`Search.graph next bound starts` lists the nodes that `starts` reach along `next`, each once, in breadth-first order
and together with its successors; `Search.reach` lists the nodes alone. `Reached` says what is reached. Nothing else is
listed (`reached_of_mem_reach`), and nothing is left out if the bound is the number of nodes of a set that the search
never leaves (`mem_reach_iff`).
-/

namespace CanonicalLR.Search

variable {α : Type} [DecidableEq α]

/-- Visits the nodes that wait, first come first served. A node joins the queue when it is first seen. -/
def visit (next : α → List α) : Nat → List (α × List α) → List α → List (α × List α)
  | 0, done, waiting => done ++ waiting.map fun x => (x, next x)
  | _ + 1, done, [] => done
  | bound + 1, done, x :: waiting =>
    let ys := next x
    visit next bound (done ++ [(x, ys)]) (waiting ++ fresh (done.map Prod.fst ++ x :: waiting) ys)

/-- The nodes that `starts` reach, in breadth-first order, each with its successors. -/
def graph (next : α → List α) (bound : Nat) (starts : List α) : List (α × List α) :=
  visit next bound [] (distinct starts)

/-- The nodes that `starts` reach, in breadth-first order. -/
def reach (next : α → List α) (bound : Nat) (starts : List α) : List α := (graph next bound starts).map Prod.fst

/-! ## Only what is reached -/

/-- A node is reached if it is a start or a successor of a node that is reached. -/
inductive Reached (next : α → List α) (starts : List α) : α → Prop
  | start {x : α} : x ∈ starts → Reached next starts x
  | step {x y : α} : Reached next starts x → y ∈ next x → Reached next starts y

omit [DecidableEq α] in
/-- What is reached from a node that is reached is reached. -/
theorem Reached.trans {next : α → List α} {starts : List α} {x y : α} (hx : Reached next starts x)
    (hy : Reached next [x] y) : Reached next starts y := by
  induction hy with
  | start h => exact List.mem_singleton.mp h ▸ hx
  | step _ h ih => exact ih.step h

theorem visit_spec {next : α → List α} {P : α → Prop} (hstep : ∀ x, P x → ∀ y ∈ next x, P y) :
    ∀ (bound : Nat) {done : List (α × List α)} {waiting : List α},
      (∀ e ∈ done, P e.1 ∧ e.2 = next e.1) → (∀ x ∈ waiting, P x) →
      ∀ e ∈ visit next bound done waiting, P e.1 ∧ e.2 = next e.1
  | 0, done, waiting, hd, hw, e, he => by
    rcases List.mem_append.mp he with he | he
    · exact hd e he
    · obtain ⟨x, hx, rfl⟩ := List.mem_map.mp he
      exact ⟨hw x hx, rfl⟩
  | _ + 1, done, [], hd, _, e, he => hd e he
  | bound + 1, done, x :: waiting, hd, hw, e, he => by
    have hx := hw x List.mem_cons_self
    refine visit_spec hstep bound ?_ ?_ e he
    · intro e he
      rcases List.mem_append.mp he with he | he
      · exact hd e he
      · rw [List.mem_singleton.mp he]
        exact ⟨hx, rfl⟩
    · intro y hy
      rcases List.mem_append.mp hy with hy | hy
      · exact hw y (List.mem_cons_of_mem _ hy)
      · exact hstep x hx y (mem_fresh.mp hy).1

/-- Each node that is listed is reached, and its successors stand beside it. -/
theorem reached_of_mem_graph {next : α → List α} {bound : Nat} {starts : List α} {e : α × List α}
    (he : e ∈ graph next bound starts) : Reached next starts e.1 ∧ e.2 = next e.1 :=
  visit_spec (fun _ h _ hy => .step h hy) bound (by simp) (fun _ hx => .start (mem_distinct.mp hx)) e he

/-- Only nodes that are reached are listed. -/
theorem reached_of_mem_reach {next : α → List α} {bound : Nat} {starts : List α} {x : α}
    (hx : x ∈ reach next bound starts) : Reached next starts x := by
  obtain ⟨e, he, rfl⟩ := List.mem_map.mp hx
  exact (reached_of_mem_graph he).1

/-! ## Order -/

/-- Nodes that were visited stay where they are. -/
theorem prefix_visit {next : α → List α} : ∀ (bound : Nat) (done : List (α × List α)) (waiting : List α),
    done <+: visit next bound done waiting
  | 0, done, _ => List.prefix_append done _
  | _ + 1, done, [] => List.prefix_refl done
  | bound + 1, done, x :: _ =>
    (List.prefix_append done [(x, next x)]).trans (prefix_visit bound _ _)

/-- A single start is listed first. -/
theorem getElem?_reach_zero {next : α → List α} {bound : Nat} {x : α} : (reach next bound [x])[0]? = some x := by
  have hd : distinct [x] = [x] := rfl
  have hp : [(x, next x)] <+: visit next bound [] [x] := by
    cases bound with
    | zero => exact List.prefix_refl _
    | succ bound => exact prefix_visit bound [(x, next x)] _
  obtain ⟨rest, hr⟩ := hp
  rw [reach, graph, hd, ← hr]
  rfl

/-! ## All that is reached -/

/-- After a visit to `x`, what was seen is what was seen before and the successors of `x`. -/
theorem mem_visited_iff {next : α → List α} {done : List (α × List α)} {x y : α} {waiting : List α} :
    y ∈ (done ++ [(x, next x)]).map Prod.fst ++ (waiting ++ fresh (done.map Prod.fst ++ x :: waiting) (next x)) ↔
      y ∈ done.map Prod.fst ++ x :: waiting ∨ y ∈ next x := by
  simp only [List.map_append, List.map_cons, List.map_nil, List.mem_append, List.mem_cons, List.not_mem_nil, mem_fresh]
  grind

/-- After a visit nothing was seen twice. -/
theorem nodup_visited {next : α → List α} {done : List (α × List α)} {x : α} {waiting : List α}
    (h : (done.map Prod.fst ++ x :: waiting).Nodup) :
    ((done ++ [(x, next x)]).map Prod.fst ++
      (waiting ++ fresh (done.map Prod.fst ++ x :: waiting) (next x))).Nodup := by
  have hfresh := @nodup_append_fresh _ _ _ (next x) h
  simpa only [List.map_append, List.map_cons, List.map_nil, List.append_assoc, List.cons_append,
    List.nil_append] using hfresh

theorem visit_closed {next : α → List α} {nodes : List α} (hnext : ∀ x ∈ nodes, ∀ y ∈ next x, y ∈ nodes)
    {bound : Nat} {done : List (α × List α)} {waiting : List α}
    (hnodup : (done.map Prod.fst ++ waiting).Nodup) (hin : ∀ x ∈ done.map Prod.fst ++ waiting, x ∈ nodes)
    (hdone : ∀ x ∈ done.map Prod.fst, ∀ y ∈ next x, y ∈ done.map Prod.fst ++ waiting)
    (hbound : nodes.length ≤ bound + done.length) :
    ((visit next bound done waiting).map Prod.fst).Nodup ∧
      (∀ x ∈ done.map Prod.fst ++ waiting, x ∈ (visit next bound done waiting).map Prod.fst) ∧
      ∀ x ∈ (visit next bound done waiting).map Prod.fst,
        ∀ y ∈ next x, y ∈ (visit next bound done waiting).map Prod.fst := by
  induction bound generalizing done waiting with
  | zero =>
    have hlen := hnodup.length_le_of_subset hin
    simp only [List.length_append, List.length_map] at hlen
    obtain rfl : waiting = [] := List.length_eq_zero_iff.mp (by omega)
    simp only [List.append_nil] at hnodup hdone
    simpa [visit] using ⟨hnodup, by simpa using hdone⟩
  | succ bound ih =>
    cases waiting with
    | nil =>
      simp only [List.append_nil] at hnodup hdone
      simpa [visit] using ⟨hnodup, by simpa using hdone⟩
    | cons x waiting =>
      simp only [visit]
      have hx : x ∈ nodes := hin x (by simp)
      obtain ⟨h1, h2, h3⟩ := ih (nodup_visited hnodup)
        (fun y hy => (mem_visited_iff.mp hy).elim (hin y) (hnext x hx y))
        (fun y hy z hz => by
          rw [mem_visited_iff]
          simp only [List.map_append, List.map_cons, List.map_nil, List.mem_append, List.mem_singleton] at hy
          rcases hy with hy | rfl
          · exact .inl (hdone y hy z hz)
          · exact .inr hz)
        (by
          simp only [List.length_append, List.length_cons, List.length_nil]
          omega)
      exact ⟨h1, fun y hy => h2 y (mem_visited_iff.mpr (.inl hy)), h3⟩

variable {next : α → List α} {nodes starts : List α} {bound : Nat}

/-- The hypotheses of a search that is not cut short: it never leaves `nodes`, and may visit that many. -/
structure Covers (next : α → List α) (nodes starts : List α) (bound : Nat) : Prop where
  starts_mem : ∀ x ∈ starts, x ∈ nodes
  next_mem : ∀ x ∈ nodes, ∀ y ∈ next x, y ∈ nodes
  length_le : nodes.length ≤ bound

theorem reach_closed (h : Covers next nodes starts bound) :
    (reach next bound starts).Nodup ∧ (∀ x ∈ starts, x ∈ reach next bound starts) ∧
      ∀ x ∈ reach next bound starts, ∀ y ∈ next x, y ∈ reach next bound starts := by
  obtain ⟨h1, h2, h3⟩ := @visit_closed _ _ _ _ h.next_mem bound [] (distinct starts)
    (by simpa using nodup_distinct) (by simpa using h.starts_mem) (by simp) (by simpa using h.length_le)
  exact ⟨h1, fun x hx => h2 x (by simpa using hx), h3⟩

/-- No node is listed twice. -/
theorem nodup_reach (h : Covers next nodes starts bound) : (reach next bound starts).Nodup := (reach_closed h).1

/-- Exactly the nodes that are reached are listed. -/
theorem mem_reach_iff (h : Covers next nodes starts bound) {x : α} :
    x ∈ reach next bound starts ↔ Reached next starts x := by
  refine ⟨reached_of_mem_reach, fun hx => ?_⟩
  induction hx with
  | start hx => exact (reach_closed h).2.1 _ hx
  | step _ hy ih => exact (reach_closed h).2.2 _ ih _ hy

end CanonicalLR.Search
