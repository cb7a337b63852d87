import CanonicalLR.Proofs.Grammar.Faults
import CanonicalLR.Proofs.Search
import Mathlib.Data.List.Forall2

/-!
# Reading a definition part by part

Each part of a definition has two lemmas: what it gives if it is read, and which fault it has if not. Entries declare
terminals that stand at their first places (`Vocabulary.terminals_of_foldlM`), rules give the entries of a rulebook one
for one (`Rulebook.entries_of_foldlM`). An error in a list is that of the first member that is refused, after what was
read before it (`foldlM_eq_error`); so a rule that is refused as a duplicate is among those before it.
-/

namespace CanonicalLR

variable {α : Type}

/-! ## Computations that may fail -/

section Except

variable {ε β γ : Type}

theorem bind_eq_ok_iff {x : Except ε β} {f : β → Except ε γ} {r : γ} :
    x >>= f = .ok r ↔ ∃ y, x = .ok y ∧ f y = .ok r := by
  cases x <;> simp [bind, Except.bind]

theorem bind_eq_error_iff {x : Except ε β} {f : β → Except ε γ} {e : ε} :
    x >>= f = .error e ↔ x = .error e ∨ ∃ y, x = .ok y ∧ f y = .error e := by
  cases x <;> simp [bind, Except.bind]

theorem mapError_eq_ok_iff {δ : Type} {x : Except ε β} {f : ε → δ} {y : β} : x.mapError f = .ok y ↔ x = .ok y := by
  cases x <;> simp [Except.mapError]

theorem foldlM_cons_eq_ok_iff {f : β → γ → Except ε β} {x : γ} {xs : List γ} {b r : β} :
    (x :: xs).foldlM f b = .ok r ↔ ∃ c, f b x = .ok c ∧ xs.foldlM f c = .ok r := by
  rw [List.foldlM_cons, bind_eq_ok_iff]

/-- An error is that of the first member that is refused. -/
theorem foldlM_eq_error {f : β → γ → Except ε β} {xs : List γ} {b : β} {e : ε} (h : xs.foldlM f b = .error e) :
    ∃ before x after c, xs = before ++ x :: after ∧ before.foldlM f b = .ok c ∧ f c x = .error e := by
  induction xs generalizing b with
  | nil => cases h
  | cons x xs ih =>
    rw [List.foldlM_cons, bind_eq_error_iff] at h
    rcases h with h | ⟨c, hc, h⟩
    · exact ⟨[], x, xs, b, rfl, rfl, h⟩
    · obtain ⟨before, y, after, c', rfl, hbefore, hy⟩ := ih h
      exact ⟨x :: before, y, after, c', rfl, foldlM_cons_eq_ok_iff.mpr ⟨c, hc, hbefore⟩, hy⟩

end Except

/-! ## Reading the declared terminals -/

theorem Terminal.ofDatum_eq_ok_iff {d : Datum} {t : Terminal} : ofDatum d = .ok t ↔ d.terminal? = some t := by
  rcases d with s | v
  · cases s <;> simp [ofDatum, Datum.terminal?, Symbol.terminal?]
  · rcases v with v | vs | fields
    · cases v with
      | text name => by_cases h : name = "" <;> simp [ofDatum, ofName, Datum.terminal?, Except.mapError, h]
      | _ => simp [ofDatum, Datum.terminal?]
    · simp [ofDatum, Datum.terminal?]
    · simp [ofDatum, Datum.terminal?]

theorem Terminal.ofDatum_eq_error {d : Datum} (hd : d ≠ .value (.plain (.text ""))) {e : GrammarError}
    (h : ofDatum d = .error e) : d.terminal? = none ∧ e = .notTerminal d := by
  have hnone : d.terminal? = none := by
    by_contra hne
    obtain ⟨t, ht⟩ := Option.ne_none_iff_exists'.mp hne
    rw [ofDatum_eq_ok_iff.mpr ht] at h
    cases h
  refine ⟨hnone, ?_⟩
  unfold ofDatum at h
  split at h
  · cases h
  · rename_i name
    have hname : name ≠ "" := fun hname => hd (by rw [hname])
    simp [Datum.terminal?, hname] at hnone
  · cases h
    rfl

theorem Vocabulary.declare_eq_ok {v w : Vocabulary} {d : Datum} (h : v.declare d = .ok w) :
    ∃ t, d.terminal? = some t ∧ ∃ ht : ¬IsReserved t.name, w = v.add t ht := by
  obtain ⟨t, ht, h⟩ := bind_eq_ok_iff.mp h
  refine ⟨t, Terminal.ofDatum_eq_ok_iff.mp ht, ?_⟩
  split at h
  · cases h
  · rename_i hu
    cases h
    exact ⟨hu, rfl⟩

theorem Vocabulary.hasFault_of_declare {v : Vocabulary} {d : Datum} (hd : d ≠ .value (.plain (.text "")))
    {e : GrammarError} (h : v.declare d = .error e) : d.HasFault e := by
  rcases bind_eq_error_iff.mp h with h | ⟨t, ht, h⟩
  · obtain ⟨hnone, rfl⟩ := Terminal.ofDatum_eq_error hd h
    exact .notTerminal hnone
  · split at h
    · rename_i hres
      cases h
      exact .reserved (Terminal.ofDatum_eq_ok_iff.mp ht) hres
    · cases h

theorem Vocabulary.terminals_add {v : Vocabulary} {t : Terminal} {ht : ¬IsReserved t.name} {ts : List Terminal} :
    (v.add t ht).terminals ++ fresh (v.add t ht).terminals ts = v.terminals ++ fresh v.terminals (t :: ts) := by
  have hadd : (v.add t ht).terminals = if t ∈ v.terminals then v.terminals else v.terminals ++ [t] := by
    unfold add
    split <;> rfl
  rw [hadd]
  exact append_fresh_cons

/-- What is read is declared entry by entry, and stands at its first place. -/
theorem Vocabulary.terminals_of_foldlM {ds : List Datum} {v w : Vocabulary} (h : ds.foldlM declare v = .ok w) :
    (∀ d ∈ ds, ∃ t, d.terminal? = some t ∧ ¬IsReserved t.name) ∧
      w.terminals = v.terminals ++ fresh v.terminals (ds.filterMap Datum.terminal?) := by
  induction ds generalizing v with
  | nil =>
    cases h
    exact ⟨nofun, (List.append_nil _).symm⟩
  | cons d ds ih =>
    obtain ⟨u, hu, h⟩ := foldlM_cons_eq_ok_iff.mp h
    obtain ⟨t, ht, hun, rfl⟩ := declare_eq_ok hu
    obtain ⟨hds, hw⟩ := ih h
    refine ⟨fun x hx => ?_, ?_⟩
    · rcases List.mem_cons.mp hx with rfl | hx
      · exact ⟨t, ht, hun⟩
      · exact hds x hx
    · rw [hw, terminals_add, List.filterMap_cons, ht]

/-! ## Reading the rules -/

theorem readBody_eq_ok {head : String} {ds : List Datum} {r} (h : readBody head ds = .ok r) :
    ds = r.1.map .symbol := by
  induction ds generalizing r with
  | nil =>
    cases h
    rfl
  | cons d ds ih =>
    cases d with
    | value v => cases h
    | symbol s =>
      rw [readBody] at h
      split at h
      · cases h
      · obtain ⟨r', hr', h⟩ := bind_eq_ok_iff.mp h
        cases h
        exact congrArg (.symbol s :: ·) (ih hr')

/-- A body that is refused holds what is no symbol, or a reserved symbol. -/
theorem readBody_eq_error {head : String} {ds : List Datum} {e : GrammarError} (h : readBody head ds = .error e) :
    (∃ v, .value v ∈ ds ∧ e = .notSymbol head (.value v)) ∨
      ∃ s, .symbol s ∈ ds ∧ IsReserved s.name ∧ e = .reservedInBody head s.name := by
  induction ds with
  | nil => cases h
  | cons d ds ih =>
    cases d with
    | value v =>
      cases h
      exact .inl ⟨v, List.mem_cons_self, rfl⟩
    | symbol s =>
      rw [readBody] at h
      split at h
      · rename_i hres
        cases h
        exact .inr ⟨s, List.mem_cons_self, hres, rfl⟩
      · rcases bind_eq_error_iff.mp h with h | ⟨_, _, h⟩
        · rcases ih h with ⟨v, hv, rfl⟩ | ⟨s', hs', hres, rfl⟩
          · exact .inl ⟨v, List.mem_cons_of_mem _ hv, rfl⟩
          · exact .inr ⟨s', List.mem_cons_of_mem _ hs', hres, rfl⟩
        · cases h

namespace RuleForm

/-- A written rule gives an entry of a rulebook: the rule and the payload. -/
def Gives (f : RuleForm α) (entry : Rule × Option α) : Prop :=
  f.rule? = some entry.1 ∧ entry.1.IsUnreserved ∧ f.payload? = entry.2

theorem map_fst_of_gives {forms : List (RuleForm α)} {entries : List (Rule × Option α)}
    (h : List.Forall₂ Gives forms entries) : entries.map Prod.fst = forms.filterMap rule? := by
  induction h with
  | nil => rfl
  | cons hgives _ ih => rw [List.map_cons, List.filterMap_cons, hgives.1, ih]

theorem exists_gives {forms : List (RuleForm α)} {entries : List (Rule × Option α)}
    (h : List.Forall₂ Gives forms entries) {i : Nat} {f : RuleForm α} (hf : forms[i]? = some f) :
    ∃ entry, entries[i]? = some entry ∧ f.Gives entry := by
  obtain ⟨hi, rfl⟩ := List.getElem?_eq_some_iff.mp hf
  have hi' : i < entries.length := h.length_eq ▸ hi
  exact ⟨entries[i], List.getElem?_eq_getElem hi', h.get hi hi'⟩

end RuleForm

namespace Rulebook

variable {b b' : Rulebook α} {f : RuleForm α} {e : GrammarError}

theorem addWritten_eq_ok {head body : Field} {action : Option α} (h : b.addWritten head body action = .ok b') :
    ∃ r : Rule, head.nonterminal? = some r.head ∧ body.entries? = some (r.body.map .symbol) ∧ r.IsUnreserved ∧
      b'.entries = b.entries ++ [(r, action)] := by
  unfold addWritten at h
  split at h
  · rename_i n
    split at h
    · cases h
    · rename_i ds hds
      split at h
      · cases h
      · rename_i hn
        obtain ⟨⟨ss, hss⟩, hr, h⟩ := bind_eq_ok_iff.mp h
        dsimp only at h
        split at h
        · cases h
        · cases h
          rw [readBody_eq_ok hr] at hds
          exact ⟨⟨n, ss⟩, rfl, hds, ⟨hn, hss⟩, rfl⟩
  · cases h

/-- A rule that is refused has a fault or is there already. -/
theorem addWritten_eq_error {head body : Field} {action : Option α} (hbody : body.entries?.isSome = true)
    (hf : f.head? = some head) (hf' : f.body? = some body) (h : b.addWritten head body action = .error e) :
    f.HasFault e ∨ ∃ r, f.rule? = some r ∧ r ∈ b.rules ∧ e = .duplicateRule r := by
  obtain ⟨ds, hds⟩ := Option.isSome_iff_exists.mp hbody
  have hentries : f.bodyEntries? = some ds := by rw [RuleForm.bodyEntries?, hf', Option.bind_some, hds]
  unfold addWritten at h
  split at h
  · rename_i n
    have hhead : f.headSymbol? = some n := by
      rw [RuleForm.headSymbol?, hf]
      rfl
    rw [hds] at h
    dsimp only at h
    split at h
    · rename_i hres
      cases h
      exact .inl (.reservedHead hhead hres)
    · rcases bind_eq_error_iff.mp h with h | ⟨⟨ss, hss⟩, hr, h⟩
      · rcases readBody_eq_error h with ⟨v, hv, rfl⟩ | ⟨s, hs, hres, rfl⟩
        · exact .inl (.notSymbol hhead hentries hv)
        · exact .inl (.reservedInBody hhead hentries hs hres)
      · dsimp only at h
        split at h
        · rename_i hmem
          cases h
          rw [readBody_eq_ok hr] at hentries
          exact .inr ⟨⟨n, ss⟩, RuleForm.rule?_eq_some_iff.mpr ⟨hhead, hentries⟩, hmem, rfl⟩
        · cases h
  · rename_i hne
    cases h
    refine .inl (.badHead hf ?_)
    unfold Field.nonterminal?
    split
    · rename_i n
      exact absurd rfl (hne n)
    · rfl

/-- A rule that is read is added with its payload. -/
theorem read_eq_ok (h : b.read f = .ok b') : ∃ entry, f.Gives entry ∧ b'.entries = b.entries ++ [entry] := by
  cases f with
  | bare head body =>
    obtain ⟨r, hhead, hbody, hu, he⟩ := addWritten_eq_ok h
    exact ⟨(r, none), ⟨RuleForm.rule?_eq_some_iff.mpr ⟨hhead, hbody⟩, hu, rfl⟩, he⟩
  | withAction head body action =>
    obtain ⟨r, hhead, hbody, hu, he⟩ := addWritten_eq_ok h
    exact ⟨(r, some action), ⟨RuleForm.rule?_eq_some_iff.mpr ⟨hhead, hbody⟩, hu, rfl⟩, he⟩
  | other parts => cases h

theorem read_eq_error (hbody : ∀ body ∈ f.body?, body.entries?.isSome = true) (h : b.read f = .error e) :
    f.HasFault e ∨ ∃ r, f.rule? = some r ∧ r ∈ b.rules ∧ e = .duplicateRule r := by
  cases f with
  | bare head body => exact addWritten_eq_error (hbody body rfl) rfl rfl h
  | withAction head body action => exact addWritten_eq_error (hbody body rfl) rfl rfl h
  | other parts =>
    cases h
    exact .inl (.malformed rfl)

/-- Rules that are read give the entries that are added, one for one. -/
theorem entries_of_foldlM {forms : List (RuleForm α)} (h : forms.foldlM read b = .ok b') :
    ∃ added, List.Forall₂ RuleForm.Gives forms added ∧ b'.entries = b.entries ++ added := by
  induction forms generalizing b with
  | nil =>
    cases h
    exact ⟨[], .nil, (List.append_nil _).symm⟩
  | cons f forms ih =>
    obtain ⟨c, hc, h⟩ := foldlM_cons_eq_ok_iff.mp h
    obtain ⟨entry, hgives, hentries⟩ := read_eq_ok hc
    obtain ⟨added, hadded, hb'⟩ := ih h
    exact ⟨entry :: added, .cons hgives hadded, by rw [hb', hentries, List.append_assoc, List.singleton_append]⟩

theorem gives_of_ofForms {forms : List (RuleForm α)} (h : ofForms forms = .ok b) :
    List.Forall₂ RuleForm.Gives forms b.entries := by
  obtain ⟨added, hadded, he⟩ := entries_of_foldlM h
  rw [he]
  exact hadded

theorem rules_of_ofForms {forms : List (RuleForm α)} (h : ofForms forms = .ok b) :
    b.rules = forms.filterMap RuleForm.rule? := RuleForm.map_fst_of_gives (gives_of_ofForms h)

end Rulebook

namespace Definition

variable {d : Definition α} {v : Vocabulary} {b : Rulebook α} {e : GrammarError}

/-- A rule that is refused has a fault, or it is written twice. -/
theorem hasFault_of_ofForms (hbodies : ∀ f ∈ d.forms, ∀ body ∈ f.body?, body.entries?.isSome = true)
    (h : Rulebook.ofForms d.forms = .error e) : d.HasFault e := by
  obtain ⟨before, f, after, c, hforms, hbefore, hf⟩ := foldlM_eq_error h
  have hmem : f ∈ d.forms := by
    rw [hforms]
    exact List.mem_append_right before List.mem_cons_self
  rcases Rulebook.read_eq_error (hbodies f hmem) hf with hfault | ⟨r, hr, hc, rfl⟩
  · exact .rule hmem hfault
  · -- the rule is among those that were read before, and is written once more
    rw [Rulebook.rules_of_ofForms hbefore] at hc
    have hcount : d.rules = before.filterMap RuleForm.rule? ++ r :: after.filterMap RuleForm.rule? := by
      rw [rules, hforms, List.filterMap_append, List.filterMap_cons, hr]
    refine .duplicateRule ?_
    have hpos : 0 < (before.filterMap RuleForm.rule?).count r := List.count_pos_iff.mpr hc
    rw [hcount, List.count_append, List.count_cons_self]
    omega

theorem hasFault_of_ofData (hterminals : .value (.plain (.text "")) ∉ d.terminals)
    (h : Vocabulary.ofData d.terminals = .error e) : d.HasFault e := by
  obtain ⟨before, x, after, w, hentries, -, hx⟩ := foldlM_eq_error h
  have hmem : x ∈ d.terminals := by
    rw [hentries]
    exact List.mem_append_right before List.mem_cons_self
  exact .terminal hmem (Vocabulary.hasFault_of_declare (fun he => hterminals (he ▸ hmem)) hx)

/-! ## Reading the start symbol -/

theorem findStart_cases (b : Rulebook α) (s : Symbol) : (∃ n, b.findStart s = .ok n ∧ s = .nonterminal n.1) ∨
    b.findStart s = .error (.undefinedStart s.name) ∧ ∀ n ∈ b.heads, s ≠ .nonterminal n := by
  cases s with
  | terminal t => exact .inr ⟨rfl, nofun⟩
  | nonterminal n =>
    by_cases hn : n ∈ b.heads
    · exact .inl ⟨⟨n, hn⟩, dif_pos hn, rfl⟩
    · exact .inr ⟨dif_neg hn, fun m hm he => hn (Symbol.nonterminal.inj he ▸ hm)⟩

theorem head?_distinct {β : Type} [DecidableEq β] {xs : List β} : (distinct xs).head? = xs.head? := by
  cases xs <;> rfl

theorem readStart_nothing (hne : b.heads ≠ []) :
    ∃ n, b.readStart (.value (.plain .nothing)) = .ok n ∧ b.heads.head? = some n.1 := by
  rw [Rulebook.readStart]
  generalize b.heads = ns at *
  cases ns with
  | nil => exact absurd rfl hne
  | cons n ns => exact ⟨⟨n, List.mem_cons_self⟩, rfl, rfl⟩

/-- The start symbol is read if it heads a rule, and if not that is the fault. -/
theorem readStart_cases (hd : d.IsAdmissible) (hheads : b.heads = distinct d.heads) (hne : b.heads ≠ []) :
    (∃ n, b.readStart d.start = .ok n ∧ d.startSymbol? = some (.nonterminal n.1)) ∨
      ∃ e, b.readStart d.start = .error e ∧ d.HasFault e := by
  rcases hd.start with hs | hs
  · obtain ⟨n, hn, hhead⟩ := readStart_nothing hne
    refine .inl ⟨n, by rw [hs, hn], ?_⟩
    have hfirst : d.heads.head? = some n.1 := by
      rw [← head?_distinct, ← hheads]
      exact hhead
    rw [startSymbol?, hs]
    dsimp only
    rw [hfirst, Option.map_some]
  · obtain ⟨s, hstart, hread⟩ : ∃ s, d.startSymbol? = some s ∧ b.readStart d.start = b.findStart s := by
      rcases hs with ⟨name, hname, hs⟩ | ⟨s, hs⟩
      · refine ⟨.nonterminal ⟨name, hname⟩, by simp [startSymbol?, hs, hname], ?_⟩
        rw [hs, Rulebook.readStart, NonTerminal.ofName, dif_neg hname]
        rfl
      · exact ⟨s, by rw [startSymbol?, hs], by rw [hs, Rulebook.readStart]⟩
    rw [hread]
    rcases findStart_cases b s with ⟨n, hn, rfl⟩ | ⟨he, hno⟩
    · exact .inl ⟨n, hn, hstart⟩
    · refine .inr ⟨_, he, .undefinedStart hstart fun n hn => hno n ?_⟩
      rw [hheads]
      exact mem_distinct.mpr hn

end Definition

end CanonicalLR
