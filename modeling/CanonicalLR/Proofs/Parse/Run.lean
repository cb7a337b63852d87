import CanonicalLR.Proofs.Parse.Moves

/-!
# Chains of moves

All that one move of any table can do is listed by `ParsingTable.Effect`. A run that is over has followed a chain of
moves to a parser that stops, and every such chain is followed by a run (`ParsingTable.leads_of_run`,
`ParsingTable.Leads.exists_run`). So what holds of all that chains of moves lead to holds wherever a run ends, however
many moves it was allowed.
-/

namespace CanonicalLR

variable {α τ : Type} {t : ParsingTable α} {c c' : Config α τ} {o : Outcome α τ} {n : Nat}

namespace ParsingTable

/-- A chain of moves leads from one parser to another. -/
def Leads (t : ParsingTable α) : Config α τ → Config α τ → Prop :=
  Relation.ReflTransGen fun c c' => t.step c = .next c'

/-- A run follows a chain of moves to an end. -/
theorem Leads.exists_run (h : t.Leads c c') (ho : t.step c' = .stop o) : ∃ n, t.run n c = some (o, c') := by
  induction h using Relation.ReflTransGen.head_induction_on with
  | refl => exact ⟨1, by rw [run, ho]⟩
  | head hs _ ih =>
    obtain ⟨n, hn⟩ := ih
    exact ⟨n + 1, by rw [run, hs]; exact hn⟩

/-- A run that is over has followed a chain of moves to the parser that met its outcome. -/
theorem leads_of_run (h : t.run n c = some (o, c')) : t.Leads c c' ∧ t.step c' = .stop o := by
  induction n generalizing c with
  | zero => cases h
  | succ n ih =>
    rw [run] at h
    cases hs : t.step c with
    | next d =>
      rw [hs] at h
      obtain ⟨hl, ho⟩ := ih h
      exact ⟨.head hs hl, ho⟩
    | stop o' =>
      rw [hs] at h
      cases h
      exact ⟨.refl, hs⟩

/-- What one move can do, whatever the table. -/
inductive Effect (t : ParsingTable α) (c : Config α τ) : Move α τ → Prop
  | fault (f : MachineFault) : Effect t c (.stop (.fault f))
  | syntaxError : t.actionOn c.state c.lookahead = .ok none →
      Effect t c (.stop (.syntaxError c.lookahead c.state (t.expected c.state)))
  | shift {j : Int} : t.actionOn c.state c.lookahead = .ok (some (.shift j)) → Effect t c (.next (c.afterShift j))
  | reduce {k i j : Int} {is : List Int} {p : Production α} :
      t.actionOn c.state c.lookahead = .ok (some (.reduce k)) → t.grammar.production? k = some p →
      (c.state :: c.below).drop p.body.length = i :: is → t.goto.get? (i, .nonterminal p.head) = some j →
      Effect t c (.next (c.afterReduce p j i is))
  | accept {tree : Tree α τ} {trees : List (Tree α τ)} : t.actionOn c.state c.lookahead = .ok (some .accept) →
      c.trees = tree :: trees → Effect t c (.stop (.accepted tree))

theorem effect_step (t : ParsingTable α) (c : Config α τ) : t.Effect c (t.step c) := by
  unfold step
  split
  · exact .fault _
  · rename_i ha
    exact .syntaxError ha
  · rename_i j ha
    exact .shift ha
  · rename_i k ha
    split
    · exact .fault _
    · rename_i p hp
      simp only [reduce]
      split
      · exact .fault _
      · rename_i i is hdrop
        split
        · exact .fault _
        · rename_i j hj
          exact .reduce ha hp hdrop hj
  · rename_i ha
    split
    · exact .fault _
    · rename_i htrees
      exact .accept ha htrees

/-- A syntax error is about the lookahead and the state that have no action. -/
theorem actionOn_of_step_syntaxError {token : Option (Token τ)} {i : Int} {ts : List Terminal}
    (h : t.step c = .stop (.syntaxError token i ts)) :
    token = c.lookahead ∧ i = c.state ∧ ts = t.expected i ∧ t.actionOn c.state c.lookahead = .ok none := by
  cases h ▸ t.effect_step c with
  | syntaxError ha => exact ⟨rfl, rfl, rfl, ha⟩

/-- What is accepted is the tree on top of the stack. -/
theorem trees_of_step_accepted {tree : Tree α τ} (h : t.step c = .stop (.accepted tree)) :
    ∃ trees, c.trees = tree :: trees := by
  cases h ▸ t.effect_step c with
  | accept _ htrees => exact ⟨_, htrees⟩

/-- A run is over after some number of moves. -/
def Ends (t : ParsingTable α) (c : Config α τ) : Prop := ∃ n r, t.run n c = some r

theorem ends_of_stop (h : t.step c = .stop o) : t.Ends c := ⟨1, _, by rw [run, h]⟩

theorem ends_of_next (h : t.step c = .next c') (he : t.Ends c') : t.Ends c := by
  obtain ⟨n, r, hr⟩ := he
  exact ⟨n + 1, r, by rw [run, h]; exact hr⟩

theorem Ends.of_leads (he : t.Ends c) (h : t.Leads c c') : t.Ends c' := by
  induction h using Relation.ReflTransGen.head_induction_on with
  | refl => exact he
  | head hs _ ih =>
    obtain ⟨n, r, hr⟩ := he
    cases n with
    | zero => cases hr
    | succ n =>
      rw [run, hs] at hr
      exact ih ⟨n, r, hr⟩

/-- No chain of moves goes on forever where a run is over at some time. -/
theorem Ends.not_endless {f : Nat → Config α τ} (he : t.Ends (f 0)) : ¬∀ k, t.step (f k) = .next (f (k + 1)) := by
  obtain ⟨n, r, hr⟩ := he
  intro hf
  induction n generalizing f with
  | zero => cases hr
  | succ n ih =>
    rw [run, hf 0] at hr
    exact ih (f := fun k => f (k + 1)) hr fun k => hf (k + 1)

/-- No chain of moves leads on to an endless one where a run is over at some time. -/
theorem Ends.not_leads_endless (he : t.Ends c) :
    ¬∃ f : Nat → Config α τ, t.Leads c (f 0) ∧ ∀ k, t.step (f k) = .next (f (k + 1)) := by
  rintro ⟨f, hl, hf⟩
  exact (he.of_leads hl).not_endless hf

/-- A stream has an outcome if the run on it is over at some time. -/
theorem Ends.exists_parse? {stream : List (Option (Token τ))} (he : t.Ends (.initial stream)) :
    ∃ n r, t.parse? n stream = some r := by
  obtain ⟨n, r, hr⟩ := he
  exact ⟨n, _, by rw [parse?, hr]; rfl⟩

/-- An outcome stays as it is when more moves are allowed. -/
theorem parse?_mono {m : Nat} {stream : List (Option (Token τ))} {r : Outcome α τ × Nat}
    (h : t.parse? m stream = some r) (hmn : m ≤ n) : t.parse? n stream = some r := by
  obtain ⟨r', hr, he⟩ := Option.map_eq_some_iff.mp h
  rw [parse?, t.run_mono hr hmn, ← he]
  rfl

/-- A stream has one outcome, however many moves are allowed. -/
theorem parse?_unique {m : Nat} {stream : List (Option (Token τ))} {r r' : Outcome α τ × Nat}
    (h : t.parse? m stream = some r) (h' : t.parse? n stream = some r') : r = r' := by
  have hmax := parse?_mono h (Nat.le_max_left m n)
  rw [parse?_mono h' (Nat.le_max_right m n)] at hmax
  exact (Option.some.inj hmax).symm

end ParsingTable

end CanonicalLR
