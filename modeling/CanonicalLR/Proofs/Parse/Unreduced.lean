import CanonicalLR.Proofs.Parse.Soundness
import CanonicalLR.Proofs.Table.Views

/-!
# Productions that are never reduced

The listing of a table complains about productions that lost a choice between reductions and that no entry reduces by.
In a canonical table these are productions of the grammar, told by the conflicts and the entries alone, and they stand
in the order of the first conflicts that they lost (`pairwise_losesBefore`).

A move reduces by a production only if an entry does, and so the productions of the trees on the stack are always among
those that entries reduce by (`reduces_of_leads`). A production that the listing complains about is therefore in no tree
that the parser returns (`exists_complainsAbout`).
-/

namespace CanonicalLR

variable {α τ : Type}

/-! ## Conflicts that are lost -/

/-- The conflict is between reductions, and the production is the one that is rejected. -/
def Conflict.IsLostBy (c : Conflict) (p : Production α) : Prop :=
  c.kind = .reduceReduce ∧ c.rejected = .reduce p.number

theorem Action.reduction?_eq_some_iff {act : Action} {i : Int} : act.reduction? = some i ↔ act = .reduce i := by
  cases act <;> simp [Action.reduction?]

namespace ParsingTable

/-- Some entry of the table reduces by the production. -/
def Reduces (t : ParsingTable α) (p : Production α) : Prop := ∃ k, t.action.get? k = some (.reduce p.number)

/-- The production has lost a conflict and no entry reduces by it. -/
def IsUnreduced (t : ParsingTable α) (p : Production α) : Prop := (∃ c ∈ t.conflicts, c.IsLostBy p) ∧ ¬t.Reduces p

/-- A production loses a conflict before another loses its first. -/
def LosesBefore (t : ParsingTable α) (p q : Production α) : Prop :=
  ∃ (i : Nat) (c : Conflict), t.conflicts[i]? = some c ∧ c.IsLostBy p ∧
    ∀ (j : Nat) (d : Conflict), t.conflicts[j]? = some d → d.IsLostBy q → i < j

/-- The number that a conflict puts on the list of productions that are never reduced. -/
def loser? (t : ParsingTable α) (c : Conflict) : Option Int :=
  if c.kind = .reduceReduce then
    c.rejected.reduction?.filter (· ∉ t.action.entries.filterMap fun e => e.2.reduction?)
  else none

theorem neverReduced_eq {t : ParsingTable α} : t.neverReduced = distinct (t.conflicts.filterMap t.loser?) := by
  rw [neverReduced, conflictsOf, List.filterMap_filter]
  simp only [decide_eq_true_eq]
  rfl

theorem mem_reductions_iff {t : ParsingTable α} {i : Int} :
    i ∈ t.action.entries.filterMap (fun e => e.2.reduction?) ↔ ∃ k, t.action.get? k = some (.reduce i) := by
  simp only [List.mem_filterMap, Action.reduction?_eq_some_iff, OrderedMap.get?_eq_some_iff]
  constructor
  · rintro ⟨⟨k, _⟩, he, rfl⟩
    exact ⟨k, he⟩
  · rintro ⟨k, he⟩
    exact ⟨_, he, rfl⟩

theorem loser?_eq_some_iff {t : ParsingTable α} {c : Conflict} {i : Int} : t.loser? c = some i ↔
    c.kind = .reduceReduce ∧ c.rejected = .reduce i ∧ ¬∃ k, t.action.get? k = some (.reduce i) := by
  rw [loser?, Option.ite_none_right_eq_some, Option.filter_eq_some_iff, Action.reduction?_eq_some_iff,
    decide_eq_true_iff, mem_reductions_iff]

end ParsingTable

/-- What comes first in a list through a partial map comes first in the list itself. -/
theorem exists_before_of_filterMap {β γ : Type} {f : β → Option γ} {x y : γ} {bs : List β}
    (h : ∃ i : Nat, (bs.filterMap f)[i]? = some x ∧ ∀ j, (bs.filterMap f)[j]? = some y → i < j) :
    ∃ (i : Nat) (b : β), bs[i]? = some b ∧ f b = some x ∧
      ∀ (j : Nat) (c : β), bs[j]? = some c → f c = some y → i < j := by
  induction bs with
  | nil =>
    obtain ⟨i, hi, -⟩ := h
    cases hi
  | cons b bs ih =>
    obtain ⟨i, hi, hlt⟩ := h
    rw [List.filterMap_cons] at hi hlt
    -- places in the rest of the list are places in the whole list, one further
    have hrest (h : ∃ i : Nat, (bs.filterMap f)[i]? = some x ∧ ∀ j, (bs.filterMap f)[j]? = some y → i < j)
        (hb : f b ≠ some y) : ∃ (i : Nat) (b' : β), (b :: bs)[i]? = some b' ∧ f b' = some x ∧
          ∀ (j : Nat) (c : β), (b :: bs)[j]? = some c → f c = some y → i < j := by
      obtain ⟨i, b', hi, hx, hlt⟩ := ih h
      refine ⟨i + 1, b', hi, hx, fun j c hc hy => ?_⟩
      cases j with
      | zero =>
        cases hc
        exact absurd hy hb
      | succ j => exact Nat.succ_lt_succ (hlt j c hc hy)
    cases hf : f b with
    | none =>
      rw [hf] at hi hlt
      exact hrest ⟨i, hi, hlt⟩ (by simp [hf])
    | some z =>
      rw [hf] at hi hlt
      have hne : z ≠ y := fun hz => absurd (hlt 0 (congrArg some hz)) (Nat.not_lt_zero i)
      have hb : f b ≠ some y := fun hy => hne (Option.some.inj (hf.symm.trans hy))
      cases i with
      | zero =>
        refine ⟨0, b, rfl, hf.trans hi, fun j c hc hy => Nat.pos_of_ne_zero ?_⟩
        rintro rfl
        cases hc
        exact hb hy
      | succ i => exact hrest ⟨i, hi, fun j hj => Nat.lt_of_succ_lt_succ (hlt (j + 1) hj)⟩ hb

/-! ## The listing -/

section Listing

variable {g : Grammar α}

/-- The numbers on the list are those of productions. -/
theorem exists_number_of_mem_neverReduced {i : Int} (hi : i ∈ (canonicalAutomaton g).table.neverReduced) :
    ∃ p ∈ g.productions, i = p.number := by
  rw [ParsingTable.neverReduced_eq, mem_distinct, List.mem_filterMap] at hi
  obtain ⟨c, hc, hi⟩ := hi
  obtain ⟨-, hrejected, -⟩ := ParsingTable.loser?_eq_some_iff.mp hi
  obtain ⟨n, s, t, r, hn, -, hr, act, hact, rfl⟩ := mem_conflicts_iff.mp hc
  obtain rfl : act = .reduce i := hrejected
  exact exists_number_of_offered hn (((resolve_spec cellCandidates_offered hr).2 _).mp hact).1

/-- The list holds the productions that lost a conflict and that no entry reduces by. -/
theorem number_mem_neverReduced_iff {t : ParsingTable α} {p : Production α} :
    (p.number : Int) ∈ t.neverReduced ↔ t.IsUnreduced p := by
  rw [ParsingTable.neverReduced_eq, mem_distinct, List.mem_filterMap]
  simp only [ParsingTable.loser?_eq_some_iff]
  constructor
  · rintro ⟨c, hc, hkind, hrejected, hno⟩
    exact ⟨⟨c, hc, hkind, hrejected⟩, hno⟩
  · rintro ⟨⟨c, hc, hkind, hrejected⟩, hno⟩
    exact ⟨c, hc, hkind, hrejected, hno⟩

/-- The list is in order of the first conflicts that were lost. -/
theorem pairwise_losesBefore {t : ParsingTable α} {ps : List (Production α)}
    (hps : t.neverReduced = ps.map fun p => (p.number : Int)) : ps.Pairwise t.LosesBefore := by
  have hpairwise := @pairwise_distinct _ _ (t.conflicts.filterMap t.loser?)
  rw [← ParsingTable.neverReduced_eq, hps, List.pairwise_map] at hpairwise
  refine hpairwise.imp_of_mem fun {p q} _ hq hpq => ?_
  obtain ⟨i, c, hi, hp, hlt⟩ := exists_before_of_filterMap hpq
  obtain ⟨hkind, hrejected, -⟩ := ParsingTable.loser?_eq_some_iff.mp hp
  have hno : ¬t.Reduces q := (number_mem_neverReduced_iff.mp (hps ▸ List.mem_map_of_mem hq)).2
  exact ⟨i, c, hi, ⟨hkind, hrejected⟩, fun j d hj hd =>
    hlt j d hj (ParsingTable.loser?_eq_some_iff.mpr ⟨hd.1, hd.2, hno⟩)⟩

/-- Numbers of productions are those of a list of productions. -/
theorem exists_map_number {is : List Int} (his : ∀ i ∈ is, ∃ p ∈ g.productions, i = p.number) :
    ∃ ps : List (Production α), (∀ p ∈ ps, p ∈ g.productions) ∧ is = ps.map fun p => (p.number : Int) := by
  induction is with
  | nil => exact ⟨[], nofun, rfl⟩
  | cons i is ih =>
    obtain ⟨p, hp, rfl⟩ := his i List.mem_cons_self
    obtain ⟨ps, hps, rfl⟩ := ih fun j hj => his j (List.mem_cons_of_mem _ hj)
    exact ⟨p :: ps, List.forall_mem_cons.mpr ⟨hp, hps⟩, rfl⟩

theorem mapM_neverReducedLine {t : ParsingTable α} {ps : List (Production α)}
    (hps : ∀ p ∈ ps, p ∈ t.grammar.productions) :
    (ps.map fun p => (p.number : Int)).mapM t.neverReducedLine =
      some (ps.map fun p => s!"Rule ({p.text}) is never reduced") := by
  induction ps with
  | nil => rfl
  | cons p ps ih =>
    rw [List.map_cons, List.mapM_cons, ParsingTable.neverReducedLine,
      Grammar.production?_number (hps p List.mem_cons_self), ih fun q hq => hps q (List.mem_cons_of_mem p hq)]
    rfl

/-- The lines of a listing, with complaints about the given productions. -/
def ParsingTable.linesWith (t : ParsingTable α) (ps : List (Production α)) : List String :=
  t.descriptions ++ (if t.conflicts = [] then [] else "\nConflicts:\n" :: t.conflicts.map Conflict.text) ++
    ps.map fun p => s!"Rule ({p.text}) is never reduced"

theorem listing?_eq_some {t : ParsingTable α} {ps : List (Production α)}
    (hps : ∀ p ∈ ps, p ∈ t.grammar.productions) (hnumbers : t.neverReduced = ps.map fun p => (p.number : Int)) :
    t.listing? = some ("\n".intercalate (t.linesWith ps)) := by
  rw [ParsingTable.listing?, hnumbers, mapM_neverReducedLine hps, ParsingTable.linesWith]
  simp only [List.isEmpty_iff]
  by_cases hnone : t.conflicts = []
  · have hnil : ps = [] := by
      rw [ParsingTable.neverReduced_eq, hnone] at hnumbers
      exact List.map_eq_nil_iff.mp hnumbers.symm
    rw [if_pos hnone, if_pos hnone, hnil]
    simp
  · rw [if_neg hnone, if_neg hnone]
    simp

end Listing

/-! ## Runs -/

section Runs

variable {g : Grammar α} {c c' : Config α τ} {xs : List Symbol}

/-- What a move reduces by, an entry reduces by. -/
theorem reduces_of_reduction? {p : Production α} (h : (canonicalAutomaton g).table.reduction? c = some p) :
    (canonicalAutomaton g).table.Reduces p := by
  unfold ParsingTable.reduction? at h
  split at h
  · rename_i i ha
    obtain ⟨t, -, hget⟩ := ParsingTable.actionOn_eq_some_iff.mp ha
    obtain ⟨hpos, hlt⟩ := bounds_of_reduce hget
    obtain ⟨q, hq, rfl⟩ := Grammar.exists_number_eq (Int.le_trans Int.one_nonneg hpos) hlt
    obtain rfl := Option.some.inj ((Grammar.production?_number hq).symm.trans h)
    exact ⟨_, hget⟩
  · cases h

/-- **One move keeps to the productions that entries reduce by.** -/
theorem Along.reduces_next (h : Along g c xs) (hs : (canonicalAutomaton g).table.step c = .next c')
    (hc : ∀ p ∈ c.productions, (canonicalAutomaton g).table.Reduces p) :
    ∀ p ∈ c'.productions, (canonicalAutomaton g).table.Reduces p := by
  obtain ⟨-, -, -, hproductions⟩ := h.step_next hs
  intro p hp
  rw [hproductions, List.mem_append, Option.mem_toList] at hp
  exact hp.elim (hc p) reduces_of_reduction?

/-- **A chain of moves keeps to the productions that entries reduce by.** -/
theorem reduces_of_leads {stream : List (Option (Token τ))}
    (hl : (canonicalAutomaton g).table.Leads (.initial stream) c) :
    ∀ p ∈ c.productions, (canonicalAutomaton g).table.Reduces p := by
  induction hl with
  | refl => exact nofun
  | tail hl hs ih =>
    obtain ⟨⟨xs, h⟩, -⟩ := exists_along_of_leads hl
    exact h.reduces_next hs ih

/-- The productions of a tree that the parser returns are among those that entries reduce by. -/
theorem reduces_of_accepted {n k : Nat} {stream : List (Option (Token τ))} {tree : Tree α τ}
    (h : (canonicalAutomaton g).table.parse? n stream = some (.accepted tree, k)) :
    ∀ p ∈ tree.postorder, (canonicalAutomaton g).table.Reduces p := by
  obtain ⟨⟨_, c⟩, hr, he⟩ := Option.map_eq_some_iff.mp h
  obtain ⟨rfl, -⟩ := Prod.mk.inj he
  obtain ⟨hl, hs⟩ := ParsingTable.leads_of_run hr
  obtain ⟨⟨xs, hc⟩, -⟩ := exists_along_of_leads hl
  obtain ⟨-, htrees, -⟩ := hc.trees_of_accepted hs
  have hproductions : c.productions = tree.postorder := by
    simp [Config.productions, htrees, forestPostorder]
  exact hproductions ▸ reduces_of_leads hl

end Runs

/-- A table complains about the productions of a list and no others, and does so with reason. -/
structure ParsingTable.ComplainsAbout (t : ParsingTable α) (ps : List (Production α)) : Prop where
  /-- The listing ends with one line for each of them, in order. -/
  listing : t.listing? = some ("\n".intercalate (t.linesWith ps))
  /-- They are the productions that lost a conflict between reductions and that no entry reduces by. -/
  mem_iff : ∀ p, p ∈ ps ↔ p ∈ t.grammar.productions ∧ t.IsUnreduced p
  nodup : ps.Nodup
  /-- They stand in order of the first conflicts that they lost. -/
  ordered : ps.Pairwise t.LosesBefore
  /-- No tree that the parser returns has a node of one of them. -/
  unused : ∀ p ∈ ps, ∀ {τ : Type} (moves : Nat) (stream : List (Option (Token τ))) (tree : Tree α τ) (taken : Nat),
    t.parse? moves stream = some (.accepted tree, taken) → p ∉ tree.postorder

/-- **The listing complains about the productions that lost a conflict and are never reduced**, and no tree has any of
them. -/
theorem exists_complainsAbout (g : Grammar α) : ∃ table, (canonicalAutomaton g).compile = .ok table ∧
    ∃ ps, table.ComplainsAbout ps := by
  obtain ⟨ps, hps, hnumbers⟩ := exists_map_number fun i hi => exists_number_of_mem_neverReduced (g := g) hi
  have hmem {p : Production α} : p ∈ ps ↔ p ∈ g.productions ∧ (canonicalAutomaton g).table.IsUnreduced p := by
    rw [← number_mem_neverReduced_iff, hnumbers, List.mem_map]
    constructor
    · exact fun hp => ⟨hps p hp, p, hp, rfl⟩
    · rintro ⟨hp, q, hq, hnumber⟩
      rwa [← Grammar.eq_of_number_eq (hps q hq) hp (Int.ofNat.inj hnumber)]
  exact ⟨_, compile_canonicalAutomaton, ps, {
    listing := listing?_eq_some hps hnumbers
    mem_iff := fun _ => hmem
    nodup := .of_map (fun p : Production α => (p.number : Int)) (hnumbers ▸ nodup_distinct)
    ordered := pairwise_losesBefore hnumbers
    unused := fun p hp _ _ _ _ _ h hnode => (hmem.mp hp).2.2 (reduces_of_accepted h p hnode) }⟩

namespace Rivals

def name : Terminal := ⟨"name", by decide⟩

def comma : Terminal := ⟨",", by decide⟩

def semicolon : Terminal := ⟨";", by decide⟩

def entry : NonTerminal := ⟨"entry", by decide⟩

def key : NonTerminal := ⟨"key", by decide⟩

def value : NonTerminal := ⟨"value", by decide⟩

def note : NonTerminal := ⟨"note", by decide⟩

/-- A name before a comma is a key, a value or a note; before a semicolon it can only be a note. -/
def grammar : Grammar Unit :=
  .make ⟨[name, comma, semicolon], by decide, by decide⟩
    ⟨[(⟨entry, [key, comma]⟩, none), (⟨entry, [value, comma]⟩, none), (⟨entry, [note, comma]⟩, none),
      (⟨entry, [note, semicolon]⟩, none), (⟨key, [name]⟩, none), (⟨value, [name]⟩, none), (⟨note, [name]⟩, none)],
      by decide, by decide⟩
    entry (by decide) (by decide)

/-- Values and notes lose to keys before a comma. Only values are complained about. -/
example : ((canonicalAutomaton grammar).table.conflictsOf .reduceReduce).map Conflict.rejected =
      [.reduce 6, .reduce 7] ∧
    (canonicalAutomaton grammar).table.neverReduced = [6] := by decide +kernel

end Rivals

end CanonicalLR
