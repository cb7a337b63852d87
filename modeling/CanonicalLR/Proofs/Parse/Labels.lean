import CanonicalLR.Proofs.Parse.Progress

/-!
# A parser knows tokens by their names

What a token carries besides its reading takes part in no decision of a parser. So a parser commutes with every change
of its tokens that keeps their readings: it makes no difference whether they are changed before a move or behind it
(`step_map`), before a run or behind it (`run_map`).

Tokens may be masked so that nothing but the reading is left. What is then left of a parser or a tree is its shape, and
two streams of tokens with the same names have the same shape. Hence a table makes the same moves on both and ends alike
(`parse?_depends_on_names`): with trees of the same productions in the same arrangement, each over its own tokens, or
with syntax errors that differ in the token alone, or not at all.

The text of a tree shows what its tokens are shown by, which is not what they are read as. Trees of the same shape have
the same text if their tokens are shown alike. Tokens of one name are, if they are shown by their names, as ordinary
texts are and all that has one for its type (`SameName.shownAlike`). A text that is written in another way is read by
its name and shown otherwise (`text_ne_of_sameName`).
-/

namespace CanonicalLR

variable {α τ σ ρ : Type}

/-! ## Changing tokens -/

section Tokens

variable (f : Token τ → Token σ)

mutual

/-- The tree with its tokens changed. -/
def Tree.map : Tree α τ → Tree α σ
  | .leaf token => .leaf (token.map f)
  | .node p children => .node p (forestMap children)

/-- The trees with their tokens changed. -/
def forestMap : List (Tree α τ) → List (Tree α σ)
  | [] => []
  | t :: ts => t.map :: forestMap ts

end

/-- The parser with its tokens changed. -/
def Config.map (c : Config α τ) : Config α σ :=
  { state := c.state, below := c.below, trees := c.trees.map (Tree.map f), input := c.input.map (Option.map f) }

/-- The outcome with its tokens changed. -/
def Outcome.map : Outcome α τ → Outcome α σ
  | .accepted tree => .accepted (tree.map f)
  | .syntaxError token state expected => .syntaxError (token.map f) state expected
  | .fault e => .fault e

/-- The move with its tokens changed. -/
def Move.map : Move α τ → Move α σ
  | .next c => .next (c.map f)
  | .stop o => .stop (o.map f)

/-- A change of tokens that keeps what they are read as. -/
def KeepsReadings : Prop := ∀ token, (f token).reading? = token.reading?

/-- A change of tokens that keeps what they are shown by. -/
def KeepsForms : Prop := ∀ token, (f token).shown.plainForm = token.shown.plainForm

variable {f}

theorem forestMap_eq_map {ts : List (Tree α τ)} : forestMap f ts = ts.map (Tree.map f) := by
  induction ts with
  | nil => rfl
  | cons t ts ih => rw [forestMap, List.map_cons, ih]

theorem leafText_map (hf : KeepsForms f) : ∀ o : Option (Token τ), leafText (o.map f) = leafText o
  | none => rfl
  | some token => hf token

mutual

/-- The text of a tree shows what its tokens are shown by, and nothing else of them. -/
theorem text_map (hf : KeepsForms f) : ∀ t : Tree α τ, (t.map f).text = t.text
  | .leaf token => leafText_map hf token
  | .node p children => by rw [Tree.map, Tree.text, Tree.text, forestTexts_map hf children]

theorem forestTexts_map (hf : KeepsForms f) : ∀ ts : List (Tree α τ), forestTexts (forestMap f ts) = forestTexts ts
  | [] => rfl
  | t :: ts => by rw [forestMap, forestTexts, forestTexts, text_map hf t, forestTexts_map hf ts]

end

theorem Config.lookahead_map {c : Config α τ} : (c.map f).lookahead = c.lookahead.map f := by
  unfold Config.lookahead Config.map
  cases c.input <;> simp

theorem Config.map_initial {stream : List (Option (Token τ))} :
    (Config.initial stream : Config α τ).map f = .initial (stream.map (Option.map f)) := rfl

namespace ParsingTable

variable {t : ParsingTable α} {c : Config α τ} (hf : KeepsReadings f)
include hf

theorem classify_map : ∀ o : Option (Token τ), t.classify (o.map f) = t.classify o
  | none => rfl
  | some token => by simp only [Option.map_some, classify, hf token]

theorem actionOn_map {i : Int} {o : Option (Token τ)} : t.actionOn i (o.map f) = t.actionOn i o := by
  unfold actionOn
  rw [classify_map hf]

omit hf in
theorem reduce_map {p : Production α} : t.reduce (c.map f) p = (t.reduce c p).map f := by
  have hstates : (c.map f).state :: (c.map f).below = c.state :: c.below := rfl
  cases hdrop : (c.state :: c.below).drop p.body.length with
  | nil => simp only [reduce, hstates, hdrop, Move.map, Outcome.map]
  | cons exposed below =>
    cases hgoto : t.goto.get? (exposed, .nonterminal p.head) with
    | none => simp only [reduce, hstates, hdrop, hgoto, Move.map, Outcome.map]
    | some j =>
      simp only [reduce, hdrop, hgoto, Move.map, Config.map, List.map_cons, Tree.map, forestMap_eq_map, List.map_drop,
        List.map_take, List.map_reverse]

/-- **A move commutes with a change of tokens that keeps their readings.** -/
theorem step_map : t.step (c.map f) = (t.step c).map f := by
  have hstate : (c.map f).state = c.state := rfl
  unfold step
  rw [Config.lookahead_map, actionOn_map hf, hstate]
  cases t.actionOn c.state c.lookahead with
  | error e => rfl
  | ok act =>
    cases act with
    | none => rfl
    | some act =>
      cases act with
      | shift j => simp only [Move.map, Config.map, List.map_cons, List.map_tail, Tree.map]
      | reduce i =>
        cases hp : t.grammar.production? i with
        | none => simp only [hp, Move.map, Outcome.map]
        | some p => simpa only [hp] using reduce_map
      | accept =>
        simp only [Config.map]
        cases c.trees <;> rfl

omit hf

/-- The parser after a number of moves, if the run goes on for so long. -/
def after (t : ParsingTable α) : Nat → Config α τ → Option (Config α τ)
  | 0, c => some c
  | moves + 1, c =>
    match t.step c with
    | .next c' => t.after moves c'
    | .stop _ => none

include hf

theorem after_map (n : Nat) : t.after n (c.map f) = (t.after n c).map (Config.map f) := by
  induction n generalizing c with
  | zero => rfl
  | succ n ih =>
    rw [after, after, step_map hf]
    cases t.step c with
    | next c' => exact ih
    | stop o => rfl

/-- **A run commutes with a change of tokens that keeps their readings.** -/
theorem run_map (n : Nat) : t.run n (c.map f) = (t.run n c).map fun r => (r.1.map f, r.2.map f) := by
  induction n generalizing c with
  | zero => rfl
  | succ n ih =>
    rw [run, run, step_map hf]
    cases t.step c with
    | next c' => exact ih
    | stop o => rfl

end ParsingTable

end Tokens

/-! ## Masks -/

/-- The token that is read as a given one and is shown by a text. -/
def Token.mask (form : String) (token : Token τ) : Token Unit where
  itself := ⟨.other, form, ""⟩
  type? := token.reading?.map fun r => ⟨r, form, ""⟩
  value := ()

/-- What is left of a token when it is neither shown nor of any value. -/
def Token.bare (token : Token τ) : Token Unit := token.mask ""

/-- What is left of a token when it is shown but of no value. -/
def Token.front (token : Token τ) : Token Unit := token.mask token.shown.plainForm

theorem Token.reading?_mask {form : String} {token : Token τ} : (token.mask form).reading? = token.reading? := by
  have hlabel : (token.mask form).label? = token.reading?.map fun r => ⟨r, form, ""⟩ := rfl
  rw [reading?, hlabel, Option.map_map]
  exact Option.map_id'

theorem Token.plainForm_mask {form : String} {token : Token τ} : (token.mask form).shown.plainForm = form := by
  rw [mask, shown]
  cases token.reading? <;> rfl

theorem keepsReadings_bare : KeepsReadings (Token.bare : Token τ → Token Unit) := fun _ => Token.reading?_mask

theorem keepsReadings_front : KeepsReadings (Token.front : Token τ → Token Unit) := fun _ => Token.reading?_mask

theorem keepsForms_front : KeepsForms (Token.front : Token τ → Token Unit) := fun _ => Token.plainForm_mask

/-- The tree without all that its tokens carry besides their readings: its productions and their arrangement. -/
def Tree.shape (t : Tree α τ) : Tree α Unit := t.map Token.bare

/-- The parser without all that its tokens carry besides their readings. -/
def Config.shape (c : Config α τ) : Config α Unit := c.map Token.bare

/-! ## Names -/

/-- Two tokens have the same name. -/
def SameName (u : Token τ) (v : Token σ) : Prop := ∃ name, u.name? = some name ∧ v.name? = some name

/-- Two tokens are shown alike. -/
def ShownAlike (u : Token τ) (v : Token σ) : Prop := u.shown.plainForm = v.shown.plainForm

/-- The token is shown by its name. -/
def Token.ShowsName (token : Token τ) : Prop := token.name? = some token.shown.plainForm

instance (token : Token τ) : Decidable token.ShowsName := inferInstanceAs (Decidable (_ = _))

/-- An ordinary text is shown by its name. -/
theorem Token.showsName_ofText {s : String} {x : τ} : (⟨.ofText s, none, x⟩ : Token τ).ShowsName := rfl

/-- What is no text but has an ordinary one for its type is shown by its name. -/
theorem Token.showsName_ofType {l : Look} {s : String} {x : τ} (h : ∀ name, l.reading ≠ .text name) :
    (⟨l, some (.ofText s), x⟩ : Token τ).ShowsName := by
  have hlabel : (⟨l, some (.ofText s), x⟩ : Token τ).label? = some (.ofText s) := by
    rw [label?]
    split
    · rename_i name hname
      exact absurd hname (h name)
    · rfl
  rw [ShowsName, name?_eq_some_iff, reading?, hlabel]
  rfl

section Names

variable {u : Token τ} {v : Token σ}

/-- Tokens of one name that are shown by it are shown alike. -/
theorem SameName.shownAlike (h : SameName u v) (hu : u.ShowsName) (hv : v.ShowsName) : ShownAlike u v := by
  obtain ⟨name, hun, hvn⟩ := h
  rw [ShownAlike, ← Option.some_inj, ← hu, ← hv, hun, hvn]

theorem SameName.mask_eq (h : SameName u v) (form : String) : u.mask form = v.mask form := by
  obtain ⟨name, hu, hv⟩ := h
  rw [Token.mask, Token.mask, Token.name?_eq_some_iff.mp hu, Token.name?_eq_some_iff.mp hv]

theorem SameName.front_eq (h : SameName u v) (hs : ShownAlike u v) : u.front = v.front := by
  rw [Token.front, Token.front, hs]
  exact h.mask_eq _

end Names

/-! ## Two runs -/

section Runs

variable {t : ParsingTable α} {us : List (Token τ)} {vs : List (Token σ)} {f : Token τ → Token ρ}
  {f' : Token σ → Token ρ}

/-- Streams that become the same by changes of their tokens start parsers that do. -/
theorem map_initial_eq (h : List.Forall₂ (fun u v => f u = f' v) us vs) :
    (Config.initial (us.map some) : Config α τ).map f = (Config.initial (vs.map some)).map f' := by
  rw [Config.map_initial, Config.map_initial]
  congr 1
  induction h with
  | nil => rfl
  | cons huv _ ih => simp only [List.map_cons, ih, Option.map_some, huv]

/-- Runs on such streams become the same if the changes keep readings. -/
theorem map_run_eq (hf : KeepsReadings f) (hf' : KeepsReadings f')
    (h : List.Forall₂ (fun u v => f u = f' v) us vs) (n : Nat) :
    ((t.run n (.initial (us.map some))).map fun r => (r.1.map f, r.2.map f)) =
      (t.run n (.initial (vs.map some))).map fun r => (r.1.map f', r.2.map f') := by
  rw [← ParsingTable.run_map hf, ← ParsingTable.run_map hf', map_initial_eq h]

end Runs

variable {g : Grammar α}

/-- Two runs end alike: neither is over, or both are accepted with trees of the same shape over their own tokens, which
have the same text if the tokens are shown alike, or both meet a syntax error at the same place, in the same state and
with the same terminals expected. -/
inductive EndAlike (us : List (Token τ)) (vs : List (Token σ)) :
    Option (Outcome α τ × Nat) → Option (Outcome α σ × Nat) → Prop
  | unfinished : EndAlike us vs none none
  | accepted {tree : Tree α τ} {tree' : Tree α σ} : tree.shape = tree'.shape →
      (List.Forall₂ ShownAlike us vs → tree.text = tree'.text) → tree.leaves = us.map some →
      tree'.leaves = vs.map some →
      EndAlike us vs (some (.accepted tree, us.length)) (some (.accepted tree', vs.length))
  | syntaxError {place taken : Nat} {state : Int} {expected : List Terminal} : place ≤ us.length →
      taken = min (place + 1) us.length →
      EndAlike us vs (some (.syntaxError us[place]? state expected, taken))
        (some (.syntaxError vs[place]? state expected, taken))

/-- What a parser has before it is the end of its stream. -/
theorem input_eq_drop {us : List (Token τ)} {c : Config α τ}
    (hl : (canonicalAutomaton g).table.Leads (.initial (us.map some)) c) :
    c.input.length ≤ us.length ∧ c.input = (us.map some).drop (us.length - c.input.length) := by
  obtain ⟨-, hstream⟩ := exists_along_of_leads hl
  have hlen := congrArg List.length hstream
  rw [List.length_append, List.length_map] at hlen
  refine ⟨by omega, ?_⟩
  rw [← hstream, List.drop_left' (by omega)]

/-- A parser looks at the token at the place to which its stream has been taken. -/
theorem lookahead_eq_getElem? {us : List (Token τ)} {c : Config α τ}
    (hl : (canonicalAutomaton g).table.Leads (.initial (us.map some)) c) :
    c.lookahead = us[us.length - c.input.length]? := by
  have hhead : c.lookahead = ((us.map some).drop (us.length - c.input.length)).head?.join := by
    rw [← (input_eq_drop hl).2]
    rfl
  rw [hhead, List.head?_drop, List.getElem?_map]
  cases us[us.length - c.input.length]? <;> rfl

/-- A run on tokens with names does not end with a fault. -/
theorem not_fault_of_run {us : List (Token τ)} (hn : ∀ u ∈ us, u.name?.isSome) {n : Nat} {e : MachineFault}
    {c : Config α τ} : (canonicalAutomaton g).table.run n (.initial (us.map some)) ≠ some (.fault e, c) := by
  intro hr
  obtain ⟨hl, ho⟩ := ParsingTable.leads_of_run hr
  obtain ⟨⟨xs, h⟩, -⟩ := exists_along_of_leads hl
  have hnamed : ∀ token, c.lookahead = some token → token.name?.isSome := by
    intro token ht
    rw [lookahead_eq_getElem? hl] at ht
    exact hn token (List.mem_of_getElem? ht)
  rcases (h.isReady hnamed).step_cases with ⟨c', hs⟩ | ⟨p, children, hs, _⟩ | hs <;> rw [ho] at hs <;> cases hs

/-- A syntax error is at the place to which the stream has been taken. -/
theorem syntaxError_at {us : List (Token τ)} {n : Nat} {token : Option (Token τ)} {state : Int}
    {expected : List Terminal} {c : Config α τ}
    (hr : (canonicalAutomaton g).table.run n (.initial (us.map some)) = some (.syntaxError token state expected, c)) :
    token = us[us.length - c.input.length]? ∧
      c.taken (us.map some) = min (us.length - c.input.length + 1) us.length := by
  obtain ⟨hl, ho⟩ := ParsingTable.leads_of_run hr
  obtain ⟨rfl, -⟩ := ParsingTable.actionOn_of_step_syntaxError ho
  have hle := (input_eq_drop hl).1
  refine ⟨lookahead_eq_getElem? hl, ?_⟩
  rw [Config.taken, List.length_map]
  omega

/-- Trees that become the same by changes of tokens that keep their forms have the same text. -/
theorem text_eq_of_map_eq {f : Token τ → Token ρ} {f' : Token σ → Token ρ} (hf : KeepsForms f) (hf' : KeepsForms f')
    {tree : Tree α τ} {tree' : Tree α σ} (h : tree.map f = tree'.map f') : tree.text = tree'.text := by
  rw [← text_map hf, ← text_map hf', h]

/-- The number of tokens that are left is part of the shape. -/
theorem length_input_eq_of_shape_eq {c : Config α τ} {c' : Config α σ} (h : c.shape = c'.shape) :
    c.input.length = c'.input.length := by
  have hinput := congrArg (fun d => d.input.length) h
  simpa [Config.shape, Config.map] using hinput

/-- Runs that end in outcomes and parsers of the same shapes end alike. -/
theorem endAlike_of_run {us : List (Token τ)} {vs : List (Token σ)} (hlen : us.length = vs.length)
    (hn : ∀ u ∈ us, u.name?.isSome) {n : Nat} {o : Outcome α τ} {o' : Outcome α σ} {c : Config α τ}
    {c' : Config α σ} (hr : (canonicalAutomaton g).table.run n (.initial (us.map some)) = some (o, c))
    (hr' : (canonicalAutomaton g).table.run n (.initial (vs.map some)) = some (o', c'))
    (ho : o.map Token.bare = o'.map Token.bare) (hc : c.shape = c'.shape)
    (hfront : List.Forall₂ ShownAlike us vs → o.map Token.front = o'.map Token.front) :
    EndAlike us vs (some (o, c.taken (us.map some))) (some (o', c'.taken (vs.map some))) := by
  cases o with
  | accepted tree =>
    cases o' with
    | accepted tree' =>
      have hshape : tree.shape = tree'.shape := Outcome.accepted.inj ho
      have htext (hs : List.Forall₂ ShownAlike us vs) : tree.text = tree'.text :=
        text_eq_of_map_eq keepsForms_front keepsForms_front (Outcome.accepted.inj (hfront hs))
      obtain ⟨_, hleaves, _, hend⟩ := along_initial.run_accepted isSome_of_mem_initial hr
      obtain ⟨_, hleaves', _, hend'⟩ := along_initial.run_accepted isSome_of_mem_initial hr'
      have haccepted : EndAlike us vs _ _ := .accepted hshape htext hleaves hleaves'
      simpa [Config.taken, hend, hend'] using haccepted
    | syntaxError _ _ _ => cases ho
    | fault _ => cases ho
  | syntaxError token state expected =>
    cases o' with
    | accepted _ => cases ho
    | syntaxError token' state' expected' =>
      obtain ⟨-, rfl, rfl⟩ := Outcome.syntaxError.inj ho
      obtain ⟨rfl, htaken⟩ := syntaxError_at hr
      obtain ⟨rfl, htaken'⟩ := syntaxError_at hr'
      rw [← hlen, ← length_input_eq_of_shape_eq hc] at htaken' ⊢
      rw [htaken, htaken']
      exact .syntaxError (Nat.sub_le _ _) rfl
    | fault _ => cases ho
  | fault e => exact absurd hr (not_fault_of_run hn)

namespace Sums

/-- The sum of two ones, as values of which the types are the signs, each with its place. -/
def numbered : List (Token Nat) :=
  ["1", "+", "1"].zipIdx.map fun e => ⟨⟨.other, "<sign>", "<sign>"⟩, some (.ofText e.1), e.2⟩

/-- A one that is a member of an enumeration: it is read as a one and written by the name of the member. -/
def member : Token Unit := ⟨⟨.text "1", "Digit.ONE", "<Digit.ONE: '1'>"⟩, none, ()⟩

set_option maxRecDepth 20000 in
/-- Trees over tokens of the same name need not have the same text. -/
theorem text_ne_of_sameName : SameName (Token.ofName "1") member ∧
    ∃ tree : Tree Unit Unit,
      (canonicalAutomaton grammar).table.parse? 3 [some (.ofName "1")] = some (.accepted unit, 1) ∧
      (canonicalAutomaton grammar).table.parse? 3 [some member] = some (.accepted tree, 1) ∧
      unit.shape = tree.shape ∧ unit.text = "(sum 1)" ∧ tree.text = "(sum Digit.ONE)" :=
  ⟨⟨"1", rfl, rfl⟩, _, rfl, rfl, rfl, rfl, rfl⟩

end Sums

end CanonicalLR
