import CanonicalLR.Proofs.Search
import Mathlib.Data.List.Nodup

/-!
# Loops without a bound

A loop is given by its turn, which has no result when the loop is over. `Loop.EndsAfter turn n s r` says that the loop
that starts with `s` is over after `n` turns and holds `r` by then. Where each turn makes a number smaller, the loop
ends (`Loop.exists_endsAfter`).

- A sweep passes over a list, whose members may each change the state, until a pass changes nothing. It ends at a state
  that no member changes (`Sweep.exists_endsAfter`).
- A work list takes out a node that waits and takes in those of its successors that it sees for the first time, until no
  node waits. Whether it is a queue or a stack, it has seen just what is reached when it ends, and it does end if all
  this is found among finitely many nodes (`WorkList.exists_endsAfter`). A queue has seen the nodes in the order of
  `Search.reach` (`WorkList.reach_eq_seen`), which is that of their first places among the starts and the successors
  of the nodes seen (`WorkList.inOrder_of_endsAfter`).
-/

namespace CanonicalLR

/-! ## Loops -/

namespace Loop

variable {σ : Type} {turn : σ → Option σ}

/-- The loop is over after a number of turns, and holds the second state by then. -/
inductive EndsAfter (turn : σ → Option σ) : Nat → σ → σ → Prop
  | ended {s : σ} : turn s = none → EndsAfter turn 0 s s
  | again {n : Nat} {s s' r : σ} : turn s = some s' → EndsAfter turn n s' r → EndsAfter turn (n + 1) s r

/-- **A loop ends if each turn keeps an invariant and makes a number smaller.** The number bounds the turns, and the
invariant holds at the end. -/
theorem exists_endsAfter {Inv : σ → Prop} {μ : σ → Nat}
    (h : ∀ s, Inv s → ∀ s', turn s = some s' → Inv s' ∧ μ s' < μ s) {s : σ} (hs : Inv s) :
    ∃ n ≤ μ s, ∃ r, EndsAfter turn n s r ∧ Inv r ∧ turn r = none := by
  induction hμ : μ s using Nat.strongRecOn generalizing s with
  | ind k ih =>
    cases ht : turn s with
    | none => exact ⟨0, Nat.zero_le k, s, .ended ht, hs, ht⟩
    | some s' =>
      obtain ⟨hs', hlt⟩ := h s hs s' ht
      obtain ⟨n, hn, r, hr, hinv, hover⟩ := ih (μ s') (by omega) hs' rfl
      exact ⟨n + 1, by omega, r, .again ht hr, hinv, hover⟩

end Loop

/-! ## Sweeps -/

namespace Sweep

variable {σ π : Type}

/-- Passes over a list whose members may each change the state. The flag says whether one did. -/
def pass (change : σ → π → Option σ) : σ → List π → σ × Bool
  | s, [] => (s, false)
  | s, p :: ps =>
    match change s p with
    | none => pass change s ps
    | some s' => ((pass change s' ps).1, true)

/-- A turn of the loop that passes over a list until a pass changes nothing. -/
def turn (change : σ → π → Option σ) (ps : List π) (s : σ) : Option σ :=
  if (pass change s ps).2 then some (pass change s ps).1 else none

variable {change : σ → π → Option σ} {ps : List π} {s : σ}

/-- A pass changes nothing just if no member does. -/
theorem pass_unchanged_iff : (pass change s ps).2 = false ↔ ∀ p ∈ ps, change s p = none := by
  induction ps with
  | nil => simp [pass]
  | cons p ps ih =>
    simp only [pass, List.mem_cons, forall_eq_or_imp]
    cases hc : change s p with
    | none => simp [ih]
    | some s' => simp

/-- What each change preserves and makes smaller, a pass preserves, and makes smaller if it changes something. -/
theorem pass_spec {Inv : σ → Prop} {μ : σ → Nat}
    (h : ∀ s, Inv s → ∀ p ∈ ps, ∀ s', change s p = some s' → Inv s' ∧ μ s' < μ s) (hs : Inv s) :
    Inv (pass change s ps).1 ∧ μ (pass change s ps).1 ≤ μ s ∧
      ((pass change s ps).2 = true → μ (pass change s ps).1 < μ s) := by
  induction ps generalizing s with
  | nil => exact ⟨hs, Nat.le_refl _, nofun⟩
  | cons p ps ih =>
    have h' : ∀ s, Inv s → ∀ q ∈ ps, ∀ s', change s q = some s' → Inv s' ∧ μ s' < μ s :=
      fun s hs q hq => h s hs q (List.mem_cons_of_mem p hq)
    rw [pass]
    cases hc : change s p with
    | none => exact ih h' hs
    | some s' =>
      obtain ⟨hs', hlt⟩ := h s hs p List.mem_cons_self s' hc
      obtain ⟨hinv, hle, -⟩ := ih h' hs'
      exact ⟨hinv, Nat.le_trans hle (Nat.le_of_lt hlt), fun _ => Nat.lt_of_le_of_lt hle hlt⟩

/-- What is left of a list shrinks when a member is found and nothing is forgotten. -/
theorem length_unknown_lt {β : Type} {facts : List β} {knows knows' : β → Prop} [DecidablePred knows]
    [DecidablePred knows'] (hkeep : ∀ x, knows x → knows' x) {x : β} (hx : x ∈ facts) (hn : ¬knows x) (hk : knows' x) :
    (facts.filter (¬knows' ·)).length < (facts.filter (¬knows ·)).length := by
  have he : facts.filter (¬knows' ·) = (facts.filter (¬knows ·)).filter (¬knows' ·) := by
    rw [List.filter_filter]
    refine List.filter_congr fun y _ => ?_
    by_cases hy : knows y
    · simp [hy, hkeep y hy]
    · simp [hy]
  rw [he, List.length_filter_lt_length_iff_exists]
  exact ⟨x, List.mem_filter.mpr ⟨hx, by simpa using hn⟩, by simpa using hk⟩

/-- **A sweep ends at a state that no member changes**, if each change finds a fact of a list and forgets none. -/
theorem exists_endsAfter {β : Type} (facts : List β) (knows : σ → β → Prop) {Inv : σ → Prop}
    (h : ∀ s, Inv s → ∀ p ∈ ps, ∀ s', change s p = some s' →
      Inv s' ∧ (∀ x, knows s x → knows s' x) ∧ ∃ x ∈ facts, ¬knows s x ∧ knows s' x)
    (hs : Inv s) :
    ∃ n r, Loop.EndsAfter (turn change ps) n s r ∧ Inv r ∧ ∀ p ∈ ps, change r p = none := by
  classical
  let μ (s : σ) := (facts.filter (¬knows s ·)).length
  have hchange : ∀ s, Inv s → ∀ p ∈ ps, ∀ s', change s p = some s' → Inv s' ∧ μ s' < μ s := by
    intro s hs p hp s' hc
    obtain ⟨hinv, hkeep, x, hx, hn, hk⟩ := h s hs p hp s' hc
    exact ⟨hinv, length_unknown_lt hkeep hx hn hk⟩
  have hturn : ∀ s, Inv s → ∀ s', turn change ps s = some s' → Inv s' ∧ μ s' < μ s := by
    intro s hs s' ht
    obtain ⟨hinv, -, hlt⟩ := pass_spec hchange hs
    unfold turn at ht
    split at ht
    · rename_i hflag
      cases ht
      exact ⟨hinv, hlt hflag⟩
    · cases ht
  obtain ⟨n, -, r, hr, hinv, hover⟩ := Loop.exists_endsAfter hturn hs
  refine ⟨n, r, hr, hinv, pass_unchanged_iff.mp ?_⟩
  simpa [turn] using hover

end Sweep

/-! ## Work lists -/

variable {α : Type}

/-- The nodes that were seen, and those of them that wait, the next one first. -/
structure WorkList (α : Type) where
  seen : List α
  waiting : List α

/-- The order in which nodes wait. -/
inductive Discipline where
  | queue
  | stack

/-- Takes in nodes: a queue behind those that wait, a stack in front of them with the last one first. -/
def Discipline.add (d : Discipline) (waiting found : List α) : List α :=
  match d with
  | .queue => waiting ++ found
  | .stack => found.reverse ++ waiting

theorem Discipline.perm_add {d : Discipline} {waiting found : List α} :
    (d.add waiting found).Perm (waiting ++ found) := by
  cases d with
  | queue => exact .refl _
  | stack => exact ((List.reverse_perm found).append_right waiting).trans List.perm_append_comm

namespace WorkList

/-- The work list that starts with the given nodes. -/
def start (d : Discipline) (starts : List α) : WorkList α := ⟨starts, d.add [] starts⟩

variable [DecidableEq α] {d : Discipline} {next : α → List α} {nodes starts : List α} {bound : Nat}

/-- A turn takes out a node that waits and takes in its successors that were not seen before. -/
def turn (d : Discipline) (next : α → List α) (w : WorkList α) : Option (WorkList α) :=
  match w.waiting with
  | [] => none
  | x :: waiting =>
    let found := fresh w.seen (next x)
    some ⟨w.seen ++ found, d.add waiting found⟩

/-- A work list is over when no node waits. -/
theorem turn_eq_none_iff {w : WorkList α} : turn d next w = none ↔ w.waiting = [] := by
  unfold turn
  cases w.waiting <;> simp

/-- What a work list preserves: it has seen the starts and only what is reached from them, each node once, and of each
node that it has taken out all successors. -/
structure Explores (next : α → List α) (starts : List α) (w : WorkList α) : Prop where
  nodup_seen : w.seen.Nodup
  nodup_waiting : w.waiting.Nodup
  waiting_seen : ∀ x ∈ w.waiting, x ∈ w.seen
  starts_seen : ∀ x ∈ starts, x ∈ w.seen
  reached : ∀ x ∈ w.seen, Search.Reached next starts x
  successors_seen : ∀ x ∈ w.seen, x ∉ w.waiting → ∀ y ∈ next x, y ∈ w.seen

omit [DecidableEq α] in
theorem explores_start (h : starts.Nodup) : Explores next starts (start d starts) where
  nodup_seen := h
  nodup_waiting := Discipline.perm_add.nodup_iff.mpr h
  waiting_seen _ hx := Discipline.perm_add.mem_iff.mp hx
  starts_seen _ hx := hx
  reached _ hx := .start hx
  successors_seen _ hx hn := absurd (Discipline.perm_add.mem_iff.mpr hx) hn

/-- A turn preserves all this, sees the same number of nodes as it takes in, and takes out one. -/
theorem Explores.turn {w w' : WorkList α} (h : Explores next starts w) (ht : turn d next w = some w') :
    Explores next starts w' ∧ w'.waiting.length + w.seen.length + 1 = w.waiting.length + w'.seen.length := by
  obtain ⟨seen, waiting⟩ := w
  unfold WorkList.turn at ht
  cases waiting with
  | nil => cases ht
  | cons x waiting =>
    obtain ⟨hseen, hwaiting, hws, hstarts, hreached, hsucc⟩ := h
    obtain ⟨hx, hwaiting⟩ := List.nodup_cons.mp hwaiting
    simp only [Option.some.injEq] at ht
    subst ht
    have hperm : (d.add waiting (fresh seen (next x))).Perm (waiting ++ fresh seen (next x)) := Discipline.perm_add
    refine ⟨⟨nodup_append_fresh hseen, ?_, ?_, ?_, ?_, ?_⟩, ?_⟩
    · refine hperm.nodup_iff.mpr (List.nodup_append.mpr ⟨hwaiting, nodup_fresh, ?_⟩)
      rintro y hy z hz rfl
      exact (mem_fresh.mp hz).2 (hws y (List.mem_cons_of_mem x hy))
    · intro y hy
      rcases List.mem_append.mp (hperm.mem_iff.mp hy) with hy | hy
      · exact List.mem_append_left _ (hws y (List.mem_cons_of_mem x hy))
      · exact List.mem_append_right _ hy
    · exact fun y hy => List.mem_append_left _ (hstarts y hy)
    · intro y hy
      rcases List.mem_append.mp hy with hy | hy
      · exact hreached y hy
      · exact (hreached x (hws x List.mem_cons_self)).step (mem_fresh.mp hy).1
    · intro y hy hny z hz
      have hny' : y ∉ waiting ++ fresh seen (next x) := fun h => hny (hperm.mem_iff.mpr h)
      rw [List.mem_append, not_or] at hny'
      have hy' : y ∈ seen := (List.mem_append.mp hy).resolve_right hny'.2
      by_cases hyx : y = x
      · subst hyx
        by_cases hzs : z ∈ seen
        · exact List.mem_append_left _ hzs
        · exact List.mem_append_right _ (mem_fresh.mpr ⟨hz, hzs⟩)
      · refine List.mem_append_left _ (hsucc y hy' ?_ z hz)
        simp [hyx, hny'.1]
    · have hlen := hperm.length_eq
      simp only [List.length_append, List.length_cons] at hlen ⊢
      omega

omit [DecidableEq α] in
/-- What is reached is found among the nodes that a search never leaves. -/
theorem mem_of_reached (h : Search.Covers next nodes starts bound) {x : α} (hx : Search.Reached next starts x) :
    x ∈ nodes := by
  induction hx with
  | start hx => exact h.starts_mem _ hx
  | step _ hy ih => exact h.next_mem _ ih _ hy

omit [DecidableEq α] in
/-- When no node waits, all that is reached was seen. -/
theorem Explores.mem_seen_of_reached {w : WorkList α} (h : Explores next starts w) (hnil : w.waiting = []) {x : α}
    (hx : Search.Reached next starts x) : x ∈ w.seen := by
  induction hx with
  | start hx => exact h.starts_seen _ hx
  | step _ hy ih => exact h.successors_seen _ ih (by simp [hnil]) _ hy

/-- **A work list ends when it has seen just what is reached**, in whatever order its nodes wait. -/
theorem exists_endsAfter (h : Search.Covers next nodes starts bound) (hs : starts.Nodup) :
    ∃ n ≤ bound, ∃ w, Loop.EndsAfter (turn d next) n (start d starts) w ∧
      ∀ x, x ∈ w.seen ↔ Search.Reached next starts x := by
  have hle : ∀ w, Explores next starts w → w.seen.length ≤ nodes.length := fun w hw =>
    hw.nodup_seen.length_le_of_subset fun x hx => mem_of_reached h (hw.reached x hx)
  let μ (w : WorkList α) := nodes.length + w.waiting.length - w.seen.length
  have hturn : ∀ w, Explores next starts w → ∀ w', turn d next w = some w' → Explores next starts w' ∧ μ w' < μ w := by
    intro w hw w' ht
    obtain ⟨hw', hlen⟩ := hw.turn ht
    have := hle w hw
    have := hle w' hw'
    refine ⟨hw', ?_⟩
    show nodes.length + w'.waiting.length - w'.seen.length < nodes.length + w.waiting.length - w.seen.length
    omega
  obtain ⟨n, hn, w, hend, hw, hover⟩ := Loop.exists_endsAfter hturn (explores_start hs)
  have hlen : (d.add [] starts).length = starts.length := Discipline.perm_add.length_eq
  have hn : n ≤ nodes.length + (d.add [] starts).length - starts.length := hn
  have hbound := h.length_le
  exact ⟨n, by omega, w, hend, fun x => ⟨hw.reached x, hw.mem_seen_of_reached (turn_eq_none_iff.mp hover)⟩⟩

/-- A queue visits the nodes as a search does that may visit as many. -/
theorem map_fst_visit {n : Nat} {w w' : WorkList α} (h : Loop.EndsAfter (turn .queue next) n w w') :
    ∀ {done : List (α × List α)}, w.seen = done.map Prod.fst ++ w.waiting → n ≤ bound →
      (Search.visit next bound done w.waiting).map Prod.fst = w'.seen := by
  induction h generalizing bound with
  | @ended w hover =>
    intro done hseen _
    have hnil := turn_eq_none_iff.mp hover
    rw [hnil, List.append_nil] at hseen
    rw [hnil, hseen]
    cases bound <;> simp [Search.visit]
  | @again n w w' r ht _ ih =>
    intro done hseen hn
    obtain ⟨b, rfl⟩ : ∃ b, bound = b + 1 := ⟨bound - 1, by omega⟩
    obtain ⟨seen, waiting⟩ := w
    unfold turn at ht
    cases waiting with
    | nil => cases ht
    | cons x waiting =>
      simp only [Option.some.injEq] at ht hseen
      subst ht hseen
      rw [Search.visit]
      refine ih ?_ (by omega)
      simp [Discipline.add]

/-- **A queue has seen the nodes in the order of the search.** -/
theorem reach_eq_seen {n : Nat} {w : WorkList α}
    (h : Loop.EndsAfter (turn .queue next) n (start .queue (distinct starts)) w) (hn : n ≤ bound) :
    Search.reach next bound starts = w.seen := by
  have hseen : (start .queue (distinct starts)).seen =
      ([] : List (α × List α)).map Prod.fst ++ (start .queue (distinct starts)).waiting := rfl
  exact map_fst_visit h hseen hn

/-- What a queue preserves: it takes out nodes in the order in which it sees them, and it sees them in the order of
their first places among the starts and the successors of the nodes that it takes out. -/
structure InOrder (next : α → List α) (starts taken : List α) (w : WorkList α) : Prop where
  seen_eq_append : w.seen = taken ++ w.waiting
  seen_eq_distinct : w.seen = distinct (starts ++ taken.flatMap next)
  /-- A node that is no start is a successor of a node that was seen before it. -/
  found_before : ∀ (j : Nat) (y : α), w.seen[j]? = some y → y ∉ starts →
    ∃ (i : Nat) (x : α), i < j ∧ w.seen[i]? = some x ∧ y ∈ next x

theorem inOrder_start : InOrder next starts [] (start .queue (distinct starts)) where
  seen_eq_append := rfl
  seen_eq_distinct := by
    rw [List.flatMap_nil, List.append_nil]
    rfl
  found_before j y hy hn := absurd (mem_distinct.mp (List.mem_of_getElem? hy)) hn

/-- **A queue stays in order** when it takes out the node that waits first. -/
theorem InOrder.turn {taken : List α} {w w' : WorkList α} (h : InOrder next starts taken w)
    (ht : turn .queue next w = some w') : ∃ x, InOrder next starts (taken ++ [x]) w' := by
  obtain ⟨seen, waiting⟩ := w
  unfold WorkList.turn at ht
  cases waiting with
  | nil => cases ht
  | cons x waiting =>
    obtain ⟨happend, hdistinct, hbefore⟩ := h
    simp only [Option.some.injEq] at ht happend hdistinct hbefore
    subst ht
    refine ⟨x, ?_, ?_, fun j y hy hn => ?_⟩
    · rw [happend]
      simp [Discipline.add]
    · have hflat : starts ++ (taken ++ [x]).flatMap next = (starts ++ taken.flatMap next) ++ next x := by simp
      rw [hflat, distinct_append, ← hdistinct]
    · rcases Nat.lt_or_ge j seen.length with hj | hj
      · rw [List.getElem?_append_left hj] at hy
        obtain ⟨i, z, hi, hz, hyz⟩ := hbefore j y hy hn
        exact ⟨i, z, hi, by rw [List.getElem?_append_left (Nat.lt_trans hi hj), hz], hyz⟩
      · -- the node is new, and `x` was seen before it
        have hx : seen[taken.length]? = some x := by simp [happend]
        have hlt := (List.getElem?_eq_some_iff.mp hx).1
        rw [List.getElem?_append_right hj] at hy
        have hyx := (mem_fresh.mp (List.mem_of_getElem? hy)).1
        exact ⟨taken.length, x, Nat.lt_of_lt_of_le hlt hj, by rw [List.getElem?_append_left hlt, hx], hyx⟩

/-- A queue that is over has taken out all that it has seen. -/
theorem InOrder.endsAfter {n : Nat} {taken : List α} {w r : WorkList α} (h : InOrder next starts taken w)
    (hend : Loop.EndsAfter (WorkList.turn .queue next) n w r) : InOrder next starts r.seen r := by
  induction hend generalizing taken with
  | ended hover =>
    obtain ⟨happend, hdistinct, hbefore⟩ := h
    rw [turn_eq_none_iff.mp hover, List.append_nil] at happend
    exact ⟨by rw [turn_eq_none_iff.mp hover, List.append_nil], happend ▸ hdistinct, hbefore⟩
  | again ht _ ih =>
    obtain ⟨x, h'⟩ := h.turn ht
    exact ih h'

/-- **A queue sees nodes in the order of their first places** among the starts and the successors of the nodes that it
sees. -/
theorem inOrder_of_endsAfter {n : Nat} {w : WorkList α}
    (h : Loop.EndsAfter (turn .queue next) n (start .queue (distinct starts)) w) : InOrder next starts w.seen w :=
  inOrder_start.endsAfter h

end WorkList

end CanonicalLR
