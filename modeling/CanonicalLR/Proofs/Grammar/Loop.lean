import CanonicalLR.Proofs.Grammar.Reachability
import CanonicalLR.Proofs.Loop

/-!
# The analyses as loops

Each analysis of a grammar is also a loop without a bound that changes what it knows until nothing changes any more.

- A sweep collects the heads of productions with admitted bodies only. It ends at the nullable non-terminals if no
  terminals are admitted, and at those that yield something if they are (`exists_collectHead_endsAfter`).
- A sweep collects for each head what its bodies may begin with, by what is known of their non-terminals so far. It ends
  at the sets that the grammar holds (`exists_first_endsAfter`).
- A stack takes in the non-terminals in bodies of those that it takes out. It ends at the reachable ones
  (`exists_mentions_endsAfter`).

All loops end since what they collect is found among finitely many facts that are fixed beforehand.
-/

namespace CanonicalLR

/-- Two maps are equal if they have the same keys in the same order, and the same values there. -/
theorem OrderedMap.ext_get? {κ ν : Type} [DecidableEq κ] {m m' : OrderedMap κ ν} (hk : m.keys = m'.keys)
    (hg : ∀ k ∈ m.keys, m.get? k = m'.get? k) : m = m' := by
  have hentries (m : OrderedMap κ ν) : m.entries.map some = m.keys.map fun k => (m.get? k).map (Prod.mk k) := by
    rw [keys, List.map_map]
    refine List.map_congr_left fun e he => ?_
    simp [get?_eq_some_iff.mpr he]
  have he : m.entries = m'.entries := by
    refine List.map_injective_iff.mpr (fun _ _ => Option.some.inj) ?_
    rw [hentries, hentries, ← hk]
    exact List.map_congr_left fun k h => by rw [hg k h]
  cases m
  cases m'
  cases he
  rfl

namespace Grammar

variable {α : Type} {g : Grammar α} {ps : List (Production α)}

/-! ## Heads of admitted bodies -/

/-- Collects the head of a production if its body holds admitted symbols only. -/
def collectHead (terminals : Bool) (known : SortedSet NonTerminal) (p : Production α) :
    Option (SortedSet NonTerminal) :=
  if p.head ∉ known ∧ p.body.all (admits terminals known.toList) = true then some (known.insert p.head) else none

variable {terminals : Bool}

theorem admits_mono {known known' : List NonTerminal} (h : ∀ n ∈ known, n ∈ known') {s : Symbol}
    (hs : admits terminals known s = true) : admits terminals known' s = true := by
  cases s with
  | terminal t => simpa [admits, Symbol.isAmong] using hs
  | nonterminal n =>
    simp only [admits, Symbol.isTerminal, Symbol.isAmong, Bool.false_and, Bool.false_or, decide_eq_true_eq] at hs ⊢
    exact h n hs

theorem mem_leastHeads_of_body {p : Production α} (hp : p ∈ g.productions)
    (hb : p.body.all (admits terminals (g.leastHeads terminals)) = true) : p.head ∈ g.leastHeads terminals := by
  refine mem_saturate_of_admits (mem_distinct.mpr (List.mem_map_of_mem hp)) (List.any_eq_true.mpr ⟨p, hp, ?_⟩)
  rw [Bool.and_eq_true]
  exact ⟨decide_eq_true rfl, hb⟩

/-- Heads in the least set that are collected by a loop over some productions. -/
def CollectsHeads (g : Grammar α) (terminals : Bool) (ps : List (Production α)) (known : SortedSet NonTerminal) :
    Prop :=
  ∀ n ∈ known, n ∈ g.leastHeads terminals ∧ ∃ p ∈ ps, p.head = n

/-- Collecting one more head keeps to the least set and forgets none. -/
theorem CollectsHeads.step (hps : ∀ p ∈ ps, p ∈ g.productions) {known known' : SortedSet NonTerminal}
    (h : g.CollectsHeads terminals ps known) {p : Production α} (hp : p ∈ ps)
    (hc : collectHead terminals known p = some known') :
    g.CollectsHeads terminals ps known' ∧ (∀ n, n ∈ known → n ∈ known') ∧
      ∃ n ∈ headsOf g.productions, n ∉ known ∧ n ∈ known' := by
  unfold collectHead at hc
  split at hc
  · rename_i hcond
    obtain rfl := Option.some.inj hc
    obtain ⟨hnew, hb⟩ := hcond
    refine ⟨fun n hn => ?_, fun n hn => SortedSet.mem_insert.mpr (.inr hn), p.head, ?_, hnew,
      SortedSet.mem_insert.mpr (.inl rfl)⟩
    · rcases SortedSet.mem_insert.mp hn with rfl | hn
      · refine ⟨mem_leastHeads_of_body (hps p hp) ?_, p, hp, rfl⟩
        rw [List.all_eq_true] at hb ⊢
        exact fun s hs => admits_mono (fun m hm => (h m hm).1) (hb s hs)
      · exact h n hn
    · exact mem_distinct.mpr (List.mem_map_of_mem (hps p hp))
  · cases hc

/-- A loop that collects nothing more has collected the heads in the least set. All productions must take part but the
augmented one, whose head stands in no body. -/
theorem mem_of_collectHead_eq_none (hps : ∀ p ∈ ps, p ∈ g.productions)
    (hall : ∀ p ∈ g.productions, p.head ≠ augmentedStart → p ∈ ps) {known : SortedSet NonTerminal}
    (hover : ∀ p ∈ ps, collectHead terminals known p = none) {n : NonTerminal} (hn : n ∈ g.leastHeads terminals)
    (hh : ∃ p ∈ ps, p.head = n) : n ∈ known := by
  refine saturate_induction (P := fun n => (∃ p ∈ ps, p.head = n) → n ∈ known) ?_ n hn hh
  rintro found hfound m _ hm ⟨q, hq, hqm⟩
  obtain ⟨p, hp, hpm⟩ := List.any_eq_true.mp hm
  simp only [Bool.and_eq_true, decide_eq_true_eq, List.all_eq_true] at hpm
  obtain ⟨rfl, hb⟩ := hpm
  have hpp : p ∈ ps := by
    by_cases ha : p.head = augmentedStart
    · have he : q = p := ((head_eq_augmentedStart_iff (hps q hq)).mp (hqm.trans ha)).trans
        ((head_eq_augmentedStart_iff hp).mp ha).symm
      exact he ▸ hq
    · exact hall p hp ha
  have hbody : p.body.all (admits terminals known.toList) = true := by
    refine List.all_eq_true.mpr fun s hs => ?_
    have hadm := hb s hs
    cases s with
    | terminal t => simpa [admits, Symbol.isAmong] using hadm
    | nonterminal k =>
      have hk : k ∈ found := by simpa [admits, Symbol.isTerminal, Symbol.isAmong] using hadm
      have hdef : k ∈ g.nonterminals := defined_of_mem_body hp hs
      obtain ⟨q', hq', hqk⟩ := exists_mem_tail_of_mem_nonterminals hdef
      have hq' := List.mem_of_mem_tail hq'
      have hin : k ∈ known := hfound k hk ⟨q', hall q' hq' (hqk ▸ ne_augmentedStart_of_mem_body hp hs), hqk⟩
      simpa [admits, Symbol.isTerminal, Symbol.isAmong, SortedSet.mem_def] using hin
  apply Decidable.byContradiction
  intro hnew
  have hnone := hover p hpp
  rw [collectHead, if_pos ⟨hnew, hbody⟩] at hnone
  cases hnone

/-- **The loop that collects heads ends at the heads in the least set.** -/
theorem exists_collectHead_endsAfter (terminals : Bool) (hps : ∀ p ∈ ps, p ∈ g.productions)
    (hall : ∀ p ∈ g.productions, p.head ≠ augmentedStart → p ∈ ps) :
    ∃ n known, Loop.EndsAfter (Sweep.turn (collectHead terminals) ps) n .empty known ∧
      ∀ n, n ∈ known ↔ n ∈ g.leastHeads terminals ∧ ∃ p ∈ ps, p.head = n := by
  have hstart : g.CollectsHeads terminals ps .empty := fun n hn => absurd hn List.not_mem_nil
  obtain ⟨n, known, hend, hinv, hover⟩ := Sweep.exists_endsAfter (headsOf g.productions)
    (fun known n => n ∈ known) (fun _ hknown _ hp _ hc => CollectsHeads.step hps hknown hp hc) hstart
  exact ⟨n, known, hend, fun n => ⟨hinv n, fun h => mem_of_collectHead_eq_none hps hall hover h.1 h.2⟩⟩

theorem exists_head_of_mem_leastHeads {n : NonTerminal} (h : n ∈ g.leastHeads terminals) :
    ∃ p ∈ g.productions, p.head = n := by
  refine saturate_induction (P := fun n => ∃ p ∈ g.productions, p.head = n) ?_ n h
  intro _ _ m hm _
  obtain ⟨p, hp, rfl⟩ := List.mem_map.mp (mem_distinct.mp hm)
  exact ⟨p, hp, rfl⟩

/-- The loop over all productions ends at the nullable non-terminals. -/
theorem exists_nullable_endsAfter :
    ∃ n, Loop.EndsAfter (Sweep.turn (collectHead false) g.productions) n .empty g.nullable := by
  obtain ⟨n, known, hend, hknown⟩ := exists_collectHead_endsAfter (g := g) false (fun _ hp => hp) fun _ hp _ => hp
  have he : known = g.nullable := by
    refine SortedSet.ext_mem fun m => ?_
    rw [hknown, g.nullable_eq, nullableOf_eq, SortedSet.mem_ofList]
    exact ⟨fun h => h.1, fun h => ⟨h, exists_head_of_mem_leastHeads h⟩⟩
  exact ⟨n, he ▸ hend⟩

/-- The loop over the productions of rules ends at non-terminals that decide which ones are underivable. -/
theorem exists_underivable_endsAfter :
    ∃ n known, Loop.EndsAfter (Sweep.turn (collectHead true) g.productions.tail) n .empty known ∧
      g.underivable = g.nonterminals.filter (· ∉ known) := by
  obtain ⟨n, known, hend, hknown⟩ := exists_collectHead_endsAfter (g := g) true
    (fun _ hp => List.mem_of_mem_tail hp) fun p hp ha => mem_tail_iff.mpr ⟨hp, fun he => ha (he ▸ rfl)⟩
  refine ⟨n, known, hend, List.filter_congr fun m hm => ?_⟩
  have hiff : m ∈ known ↔ m ∈ productiveOf g.productions := by
    rw [hknown, productiveOf_eq]
    exact and_iff_left (exists_mem_tail_of_mem_nonterminals hm)
  simp only [hiff]

/-! ## First sets -/

/-- What is known of the terminals that a non-terminal may begin with. -/
def knownFirst (first : OrderedMap NonTerminal (SortedSet Terminal)) (n : NonTerminal) : SortedSet Terminal :=
  (first.get? n).getD .empty

/-- The terminals that a text may begin with, by what is known of its non-terminals. -/
def knownFirstOfText (nullable : SortedSet NonTerminal) (first : OrderedMap NonTerminal (SortedSet Terminal))
    (ss : List Symbol) : SortedSet Terminal :=
  .ofList ((leading nullable ss).flatMap fun
    | .terminal t => [t]
    | .nonterminal n => (knownFirst first n).toList)

/-- Collects for the head of a production what its body may begin with, if that is not known yet. -/
def collectFirst (nullable : SortedSet NonTerminal) (first : OrderedMap NonTerminal (SortedSet Terminal))
    (p : Production α) : Option (OrderedMap NonTerminal (SortedSet Terminal)) :=
  let found := knownFirstOfText nullable first p.body
  if found.isSubset (knownFirst first p.head) then none else
    some (first.insert p.head ((knownFirst first p.head).union found))

/-- Nothing is known of any head. -/
def noFirst (ps : List (Production α)) : OrderedMap NonTerminal (SortedSet Terminal) :=
  .ofList ((headsOf ps).map fun n => (n, .empty))

theorem mem_knownFirstOfText_iff {nullable : SortedSet NonTerminal}
    {first : OrderedMap NonTerminal (SortedSet Terminal)} {ss : List Symbol} {t : Terminal} :
    t ∈ knownFirstOfText nullable first ss ↔ .terminal t ∈ leading nullable ss ∨
      ∃ n, .nonterminal n ∈ leading nullable ss ∧ t ∈ knownFirst first n := by
  rw [knownFirstOfText, SortedSet.mem_ofList, List.mem_flatMap]
  constructor
  · rintro ⟨s, hs, ht⟩
    cases s with
    | terminal u => exact .inl (List.mem_singleton.mp ht ▸ hs)
    | nonterminal n => exact .inr ⟨n, hs, ht⟩
  · rintro (h | ⟨n, hn, ht⟩)
    · exact ⟨_, h, List.mem_singleton.mpr rfl⟩
    · exact ⟨_, hn, ht⟩

/-- What is known before the loop and after each of its steps: the heads have a set each, and nothing wrong is in it. -/
structure CollectsFirst (g : Grammar α) (first : OrderedMap NonTerminal (SortedSet Terminal)) : Prop where
  keys_eq : first.keys = headsOf g.productions
  sound : ∀ n, ∀ t ∈ knownFirst first n, t ∈ g.firstSet n

theorem knownFirst_insert {first : OrderedMap NonTerminal (SortedSet Terminal)} {m n : NonTerminal}
    {ts : SortedSet Terminal} : knownFirst (first.insert m ts) n = if m = n then ts else knownFirst first n := by
  rw [knownFirst, OrderedMap.get?_insert]
  split
  · rfl
  · rfl

theorem nodup_keys_of_heads {ν : Type} (f : NonTerminal → ν) :
    (((headsOf ps).map fun n => (n, f n)).map Prod.fst).Nodup := by
  rw [List.map_map]
  simpa [Function.comp_def, headsOf] using nodup_distinct

theorem keys_of_heads {ν : Type} (f : NonTerminal → ν) :
    (OrderedMap.ofList ((headsOf ps).map fun n => (n, f n))).keys = headsOf ps := by
  rw [OrderedMap.keys, OrderedMap.entries_ofList (nodup_keys_of_heads f), List.map_map]
  exact List.map_id _

theorem knownFirst_noFirst {n : NonTerminal} : knownFirst (noFirst ps) n = .empty := by
  rw [knownFirst]
  cases hg : (noFirst ps).get? n with
  | none => rfl
  | some ts =>
    rw [noFirst, OrderedMap.get?_ofList_eq_some_iff (nodup_keys_of_heads _)] at hg
    obtain ⟨_, _, he⟩ := List.mem_map.mp hg
    exact (Prod.mk.inj he).2.symm

/-- Nothing is collected just if all that the body may begin with is known of the head. -/
theorem collectFirst_eq_none_iff {nullable : SortedSet NonTerminal}
    {first : OrderedMap NonTerminal (SortedSet Terminal)} {p : Production α} :
    collectFirst nullable first p = none ↔
      ∀ t ∈ knownFirstOfText nullable first p.body, t ∈ knownFirst first p.head := by
  simp only [collectFirst]
  rw [← SortedSet.isSubset_iff]
  split
  · rename_i hsub
    exact iff_of_true rfl hsub
  · rename_i hsub
    exact iff_of_false (Option.some_ne_none _) hsub

/-- If something is collected, it is what the body may begin with, and not all of that was known of the head. -/
theorem collectFirst_eq_some {nullable : SortedSet NonTerminal}
    {first first' : OrderedMap NonTerminal (SortedSet Terminal)} {p : Production α}
    (hc : collectFirst nullable first p = some first') :
    first' = first.insert p.head ((knownFirst first p.head).union (knownFirstOfText nullable first p.body)) ∧
      ∃ t ∈ knownFirstOfText nullable first p.body, t ∉ knownFirst first p.head := by
  simp only [collectFirst] at hc
  split at hc
  · cases hc
  · rename_i hsub
    refine ⟨(Option.some.inj hc).symm, ?_⟩
    by_contra hno
    push Not at hno
    exact hsub (SortedSet.isSubset_iff.mpr hno)

/-- What a body may begin with, its head may begin with. -/
theorem mem_firstSet_of_body {p : Production α} (hp : p ∈ g.productions) {t : Terminal}
    (ht : t ∈ g.firstOfText p.body) : t ∈ g.firstSet p.head := by
  obtain ⟨s, hs, hb⟩ := mem_firstOfText_iff_beginsWith.mp ht
  have hhead : g.BeginsWith (.nonterminal p.head) s :=
    .step (.start List.mem_cons_self) (mem_beginnings_iff.mpr ⟨p, hp, rfl, hs⟩)
  exact mem_firstSet_iff.mpr (hhead.trans hb)

/-- A step keeps what is known, and finds out something new about a head. -/
theorem CollectsFirst.step {first first' : OrderedMap NonTerminal (SortedSet Terminal)} (h : g.CollectsFirst first)
    {p : Production α} (hp : p ∈ g.productions) (hc : collectFirst g.nullable first p = some first') :
    g.CollectsFirst first' ∧ (∀ e : NonTerminal × Terminal, e.2 ∈ knownFirst first e.1 → e.2 ∈ knownFirst first' e.1) ∧
      ∃ e ∈ (headsOf g.productions).flatMap fun n => (g.firstSet n).toList.map (Prod.mk n),
        e.2 ∉ knownFirst first e.1 ∧ e.2 ∈ knownFirst first' e.1 := by
  have hhead : p.head ∈ headsOf g.productions := mem_distinct.mpr (List.mem_map_of_mem hp)
  have hfound : ∀ t ∈ knownFirstOfText g.nullable first p.body, t ∈ g.firstSet p.head := by
    intro t ht
    refine mem_firstSet_of_body hp (mem_knownFirstOfText_iff.mpr ?_)
    exact (mem_knownFirstOfText_iff.mp ht).imp_right fun ⟨n, hn, ht⟩ => ⟨n, hn, h.sound n t ht⟩
  obtain ⟨rfl, t, ht, hnt⟩ := collectFirst_eq_some hc
  refine ⟨⟨?_, fun n u hu => ?_⟩, fun e he => ?_, (p.head, t), ?_, hnt, ?_⟩
  · rw [OrderedMap.keys_insert, h.keys_eq, if_pos hhead]
  · rw [knownFirst_insert] at hu
    split at hu
    · rename_i hpn
      rcases SortedSet.mem_union.mp hu with hu | hu
      · exact hpn ▸ h.sound _ u hu
      · exact hpn ▸ hfound u hu
    · exact h.sound n u hu
  · rw [knownFirst_insert]
    split
    · rename_i hpn
      exact SortedSet.mem_union.mpr (.inl (hpn ▸ he))
    · exact he
  · exact List.mem_flatMap.mpr ⟨p.head, hhead, List.mem_map_of_mem (hfound t ht)⟩
  · rw [knownFirst_insert, if_pos rfl]
    exact SortedSet.mem_union.mpr (.inr ht)

/-- When nothing is found out any more, all that a head begins with is known. -/
theorem mem_knownFirst_of_beginsWith {first : OrderedMap NonTerminal (SortedSet Terminal)}
    (hover : ∀ p ∈ g.productions, collectFirst g.nullable first p = none) {n : NonTerminal} {s : Symbol}
    (h : g.BeginsWith (.nonterminal n) s) :
    (∀ t, s = .terminal t → t ∈ knownFirst first n) ∧
      ∀ m, s = .nonterminal m → ∀ t ∈ knownFirst first m, t ∈ knownFirst first n := by
  induction h with
  | start hs =>
    obtain rfl := List.mem_singleton.mp hs
    exact ⟨nofun, fun m hm t ht => Symbol.nonterminal.inj hm ▸ ht⟩
  | @step x y _ hy ih =>
    cases x with
    | terminal u => exact absurd hy List.not_mem_nil
    | nonterminal m =>
      obtain ⟨p, hp, rfl, hl⟩ := mem_beginnings_iff.mp hy
      have hbody := collectFirst_eq_none_iff.mp (hover p hp)
      constructor
      · rintro t rfl
        exact ih.2 p.head rfl t (hbody t (mem_knownFirstOfText_iff.mpr (.inl hl)))
      · rintro k rfl t ht
        exact ih.2 p.head rfl t (hbody t (mem_knownFirstOfText_iff.mpr (.inr ⟨k, hl, ht⟩)))

/-- **The loop that collects first sets ends at the first sets.** -/
theorem exists_first_endsAfter :
    ∃ n, Loop.EndsAfter (Sweep.turn (collectFirst g.nullable) g.productions) n (noFirst g.productions) g.first := by
  have hstart : g.CollectsFirst (noFirst g.productions) :=
    ⟨keys_of_heads _, fun n t ht => by rw [knownFirst_noFirst] at ht; exact absurd ht List.not_mem_nil⟩
  obtain ⟨n, first, hend, hinv, hover⟩ := Sweep.exists_endsAfter _
    (fun first (e : NonTerminal × Terminal) => e.2 ∈ knownFirst first e.1)
    (fun _ hfirst _ hp _ hc => CollectsFirst.step hfirst hp hc) hstart
  have hset : ∀ n, knownFirst first n = knownFirst g.first n := fun n => SortedSet.ext_mem fun t =>
    ⟨hinv.sound n t, fun ht => (mem_knownFirst_of_beginsWith hover (mem_firstSet_iff.mp ht)).1 t rfl⟩
  have hkeys : first.keys = g.first.keys := by
    rw [hinv.keys_eq, g.first_eq, firstOf, keys_of_heads]
  have he : first = g.first := by
    refine OrderedMap.ext_get? hkeys fun k hk => ?_
    have hget {m : OrderedMap NonTerminal (SortedSet Terminal)} (hk : k ∈ m.keys) :
        m.get? k = some (knownFirst m k) := by
      obtain ⟨ts, hts⟩ := OrderedMap.mem_keys_iff.mp hk
      rw [knownFirst, hts]
      rfl
    rw [hget hk, hget (hkeys ▸ hk), hset]
  exact ⟨n, he ▸ hend⟩

/-! ## Reachable non-terminals -/

/-- **The search for what the start symbol leads to ends at the reachable non-terminals.** -/
theorem exists_mentions_endsAfter (d : Discipline) : ∃ n ≤ symbolBound g.productions, ∃ w,
    Loop.EndsAfter (WorkList.turn d (mentions g.productions)) n (.start d [g.start]) w ∧
      g.unreachable = g.nonterminals.filter (· ∉ w.seen) := by
  obtain ⟨n, hn, w, hend, hw⟩ := WorkList.exists_endsAfter (d := d) (covers_mentions (g := g) (n := g.start))
    (List.nodup_singleton _)
  refine ⟨n, hn, w, hend, List.filter_congr fun m _ => ?_⟩
  have hiff : m ∈ w.seen ↔ m ∈ reachableFrom g.productions g.start :=
    (hw m).trans mem_reachableFrom_iff.symm
  simp only [hiff]

end Grammar

end CanonicalLR
