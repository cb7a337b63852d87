import CanonicalLR.Proofs.Grammar.Builder

/-!
# A builder can rebuild every grammar

A grammar can be written down: its terminals by their names, its rules over symbols with their payloads, and its start
symbol by its name. What is read from that is the grammar (`Grammar.ofDefinition_written`).

A builder knows names alone. It can tell what they stand for if no terminal and no non-terminal share one. In a body a
terminal of one character may also be put between quotes, and a name that looks quoted itself has to be
(`Builder.WrittenAs`). Such literals declare nothing new, so that the terminals stay in their order
(`Builder.readSymbols_written`), and what is built in the end is the grammar (`Builder.build_rebuilding`).
-/

namespace CanonicalLR

variable {α : Type}

/-! ## Reading what is written -/

/-- A computation that succeeds on all members of a list succeeds on the list. -/
theorem mapM_map_eq_ok {ε β γ δ : Type} {f : γ → Except ε δ} {k : β → γ} {r : β → δ} {xs : List β}
    (h : ∀ x ∈ xs, f (k x) = .ok (r x)) : (xs.map k).mapM f = .ok (xs.map r) := by
  induction xs with
  | nil => rfl
  | cons x xs ih =>
    rw [List.map_cons, List.mapM_cons, h x List.mem_cons_self, ih fun y hy => h y (List.mem_cons_of_mem x hy)]
    rfl

/-- A grammar with the given declared terminals, rules and start symbol is made of them. -/
theorem Grammar.make_eq (g : Grammar α) : Grammar.make g.vocabulary g.rulebook g.start g.start_mem g.defined = g := by
  obtain ⟨v, b, start, hs, hd, productions, rfl, nullable, rfl, first, rfl⟩ := g
  rfl

theorem Terminal.ofName_name (t : Terminal) : Terminal.ofName t.name = .ok t := dif_neg t.name_ne

theorem NonTerminal.ofName_name (n : NonTerminal) : NonTerminal.ofName n.name = .ok n := dif_neg n.name_ne

theorem Vocabulary.eq_of_terminals_eq {v w : Vocabulary} (h : v.terminals = w.terminals) : v = w := by
  cases v
  cases w
  cases h
  rfl

theorem Rulebook.eq_of_entries_eq {b b' : Rulebook α} (h : b.entries = b'.entries) : b = b' := by
  cases b
  cases b'
  cases h
  rfl

/-- Further terminals are declared by their names, one after the other. -/
theorem Vocabulary.foldlM_declare_names {v w : Vocabulary} {ts : List Terminal} (h : w.terminals = v.terminals ++ ts) :
    (ts.map fun t => Datum.value (.plain (.text t.name))).foldlM Vocabulary.declare v = .ok w := by
  induction ts generalizing v with
  | nil =>
    rw [eq_of_terminals_eq (h.trans (List.append_nil _))]
    rfl
  | cons t ts ih =>
    have ht : ¬IsReserved t.name := w.unreserved t (h ▸ List.mem_append_right _ List.mem_cons_self)
    have hnew : t ∉ v.terminals := by
      have hn := w.nodup
      rw [h] at hn
      exact fun hm => (List.nodup_append.mp hn).2.2 t hm t List.mem_cons_self rfl
    have hadd : (v.add t ht).terminals = v.terminals ++ [t] := by rw [add, dif_neg hnew]
    have hdeclare : v.declare (.value (.plain (.text t.name))) = .ok (v.add t ht) := by
      simp only [declare, Terminal.ofDatum, Terminal.ofName_name, Except.mapError, bind, Except.bind, dif_neg ht]
    rw [List.map_cons, List.foldlM_cons, hdeclare]
    refine ih ?_
    rw [h, hadd, List.append_assoc, List.singleton_append]

theorem readBody_map_symbol {head : String} : ∀ {ss : List Symbol} (hs : ∀ s ∈ ss, ¬IsReserved s.name),
    readBody head (ss.map Datum.symbol) = .ok ⟨ss, hs⟩
  | [], _ => rfl
  | s :: ss, hs => by
    rw [List.map_cons, readBody, dif_neg (hs s List.mem_cons_self),
      readBody_map_symbol fun s' hs' => hs s' (List.mem_cons_of_mem s hs')]
    rfl

/-- Further rules are read with their payloads, one after the other. -/
theorem Rulebook.foldlM_read_entries {b b' : Rulebook α} {es : List (Rule × Option α)}
    (h : b'.entries = b.entries ++ es) :
    (es.map fun e => RuleForm.ofSymbols e.1.head e.1.body e.2).foldlM Rulebook.read b = .ok b' := by
  induction es generalizing b with
  | nil =>
    rw [eq_of_entries_eq (h.trans (List.append_nil _))]
    rfl
  | cons e es ih =>
    obtain ⟨hh, hb⟩ := b'.unreserved e (h ▸ List.mem_append_right _ List.mem_cons_self)
    have hnew : e.1 ∉ b.rules := by
      have hn := b'.nodup
      rw [h, List.map_append] at hn
      exact fun hm => (List.nodup_append.mp hn).2.2 e.1 hm e.1 List.mem_cons_self rfl
    have hread : b.read (.ofSymbols e.1.head e.1.body e.2) = .ok (b.add e.1 e.2 hnew hh hb) := by
      have hwritten : b.addWritten (.one (.symbol e.1.head)) (.many (e.1.body.map .symbol)) e.2 =
          .ok (b.add e.1 e.2 hnew hh hb) := by
        simp only [addWritten, Field.entries?, dif_neg hh, readBody_map_symbol hb, bind, Except.bind]
        exact dif_neg hnew
      obtain ⟨r, _ | action⟩ := e <;> exact hwritten
    rw [List.map_cons, List.foldlM_cons, hread]
    refine ih ?_
    rw [h, add, List.append_assoc, List.singleton_append]

/-- **What is read from a grammar as it is written is the grammar.** -/
theorem Grammar.ofDefinition_written (g : Grammar α) :
    Grammar.ofDefinition (g.vocabulary.terminals.map fun t => .value (.plain (.text t.name)))
      (g.rulebook.entries.map fun e => .ofSymbols e.1.head e.1.body e.2)
      (.value (.plain (.text g.start.name))) = .ok g := by
  have hne : (g.rulebook.entries.map fun e => RuleForm.ofSymbols e.1.head e.1.body e.2).isEmpty = false := by
    obtain ⟨r, hr, -⟩ := Rulebook.mem_heads.mp g.start_mem
    obtain ⟨e, he, -⟩ := List.mem_map.mp hr
    rw [List.isEmpty_eq_false_iff, ne_eq, List.map_eq_nil_iff]
    exact List.ne_nil_of_mem he
  have hv : Vocabulary.ofData (g.vocabulary.terminals.map fun t => .value (.plain (.text t.name))) =
      .ok g.vocabulary := Vocabulary.foldlM_declare_names rfl
  have hb : Rulebook.ofForms (g.rulebook.entries.map fun e => .ofSymbols e.1.head e.1.body e.2) = .ok g.rulebook :=
    Rulebook.foldlM_read_entries rfl
  have hstart : g.rulebook.readStart (.value (.plain (.text g.start.name))) = .ok ⟨g.start, g.start_mem⟩ := by
    rw [Rulebook.readStart, NonTerminal.ofName_name]
    exact dif_pos g.start_mem
  rw [ofDefinition, hne, hv, hb]
  simp only [Bool.false_eq_true, if_false, bind, Except.bind, hstart]
  rw [dif_pos g.defined, make_eq]

namespace Builder

/-! ## Writing symbols -/

/-- The two quotes. -/
def quotes : List Char := ['\'', '"']

theorem mem_quotes {q : Char} : q ∈ quotes ↔ q = '\'' ∨ q = '"' := by simp [quotes]

/-- A text that starts and ends with the same quote. -/
def IsQuoted (w : String) : Prop := w.toList.head? ∈ quotes.map some ∧ w.toList.getLast? = w.toList.head?

instance (w : String) : Decidable (IsQuoted w) :=
  inferInstanceAs (Decidable (w.toList.head? ∈ quotes.map some ∧ w.toList.getLast? = w.toList.head?))

/-- How a symbol may be written in a body: by its name, unless that looks quoted, and a terminal of a single character
also between two quotes of one kind. -/
inductive WrittenAs : Symbol → String → Prop
  | name {s : Symbol} : ¬IsQuoted s.name → WrittenAs s s.name
  | literal {t : Terminal} {c q : Char} : t.name = c.toString → q ∈ quotes → WrittenAs t (.ofList [q, c, q])

theorem name_ne_empty : ∀ s : Symbol, s.name ≠ ""
  | .terminal t => t.name_ne
  | .nonterminal n => n.name_ne

theorem readSymbol_name {s : Symbol} (h : ¬IsQuoted s.name) : readSymbol s.name = .plain s.name := by
  unfold readSymbol
  split
  · rename_i hnil
    exact absurd (String.toList_eq_nil_iff.mp hnil) (name_ne_empty s)
  · rename_i c cs hcs
    refine if_neg ?_
    rintro ⟨hq, hlast⟩
    rw [IsQuoted, hcs, List.getLast?_eq_getLast_of_ne_nil (List.cons_ne_nil c cs), hlast] at h
    exact h ⟨List.mem_map_of_mem (mem_quotes.mpr hq), rfl⟩

theorem readSymbol_literal {c q : Char} (hq : q ∈ quotes) : readSymbol (.ofList [q, c, q]) = .literal c.toString := by
  unfold readSymbol
  simp [mem_quotes.mp hq]

/-- What is written in a body is read as the names of its symbols. It declares nothing if the terminals are declared
already. -/
theorem readSymbols_written {head : String} {terminals : List String} {ss : List Symbol} {body : List String}
    (h : List.Forall₂ WrittenAs ss body) (hss : ∀ t, .terminal t ∈ ss → t.name ∈ terminals) :
    readSymbols head terminals body = (terminals, .ok (ss.map Symbol.name)) := by
  induction h with
  | nil => rfl
  | @cons s w ss body hw _ ih =>
    have hrest := ih fun t ht => hss t (List.mem_cons_of_mem s ht)
    cases hw with
    | name hquoted =>
      simp only [readSymbols, readSymbol_name hquoted, hrest]
      rfl
    | @literal t c q hname hq =>
      have hknown : declareName terminals t.name = terminals := if_pos (hss t List.mem_cons_self)
      simp only [readSymbols, readSymbol_literal hq, ← hname, hknown, hrest]
      rfl

/-! ## Steps that fail or do not -/

/-- The error that a step ends with, if it fails. -/
def complaint? (b : Builder α) : Operation α → Option GrammarError
  | .declare name => match b.declare name with
    | .ok _ => none
    | .error e => some e
  | .add head body action => (b.add head body action).2
  | .addText head body action => (b.addText head body action).2
  | .setStart _ => none

/-- Takes a step that does not fail. -/
def perform (b : Builder α) (op : Operation α) : Except GrammarError (Builder α) :=
  match b.complaint? op with
  | none => .ok (b.apply op)
  | some e => .error e

/-- Further names that are not reserved are declared one after the other. -/
theorem foldlM_declare_names {names : List String} {b : Builder α} (hnodup : (b.terminals ++ names).Nodup)
    (hnames : ∀ name ∈ names, ¬IsReserved name) :
    names.foldlM declare b = .ok { b with terminals := b.terminals ++ names } := by
  induction names generalizing b with
  | nil =>
    rw [List.append_nil]
    rfl
  | cons name names ih =>
    have hnew : name ∉ b.terminals := fun hm =>
      (List.nodup_append.mp hnodup).2.2 name hm name List.mem_cons_self rfl
    have hdeclare : b.declare name = .ok { b with terminals := b.terminals ++ [name] } := by
      rw [declare, if_neg (hnames name List.mem_cons_self), declareName, if_neg hnew]
    rw [List.foldlM_cons, hdeclare]
    have happend : b.terminals ++ name :: names = b.terminals ++ [name] ++ names := by simp
    rw [happend] at hnodup ⊢
    exact ih hnodup fun name' hname' => hnames name' (List.mem_cons_of_mem name hname')

/-! ## The steps that rebuild a grammar -/

section Rebuilding

variable {g : Grammar α} {p : Production α}

/-- The builder that knows the declared terminals of a grammar, and given rules. -/
def knowing (g : Grammar α) (rules : List (NamedRule α)) : Builder α :=
  ⟨g.vocabulary.terminals.map Terminal.name, rules, none⟩

/-- The rule over names that a production comes from. -/
def named (p : Production α) : NamedRule α := ⟨p.head.name, p.body.map Symbol.name, p.action⟩

/-- The step that adds a production with a written body. -/
def adding (p : Production α) (body : List String) : Operation α := .add p.head.name body p.action

/-- The steps that add the productions after the first with written bodies, and then choose the start symbol. -/
def rebuilding (g : Grammar α) (bodies : List (List String)) : List (Operation α) :=
  List.zipWith adding g.productions.tail bodies ++ [.setStart (some g.start.name)]

theorem new_names (g : Grammar α) :
    Builder.new (g.vocabulary.terminals.map Terminal.name) = .ok (knowing g []) := by
  refine foldlM_declare_names (b := empty) ?_ fun name hname => ?_
  · exact g.vocabulary.nodup.map fun t u h => Terminal.eq_of_name_eq h
  · obtain ⟨t, ht, rfl⟩ := List.mem_map.mp hname
    exact g.vocabulary.unreserved t ht

theorem name_mem_of_mem_body (hp : p ∈ g.productions) {t : Terminal} (ht : .terminal t ∈ p.body) :
    t.name ∈ g.vocabulary.terminals.map Terminal.name := List.mem_map_of_mem (Grammar.defined_of_mem_body hp ht)

/-- No terminal has the name of a non-terminal. -/
def KeepsApart (g : Grammar α) : Prop := ∀ t ∈ g.terminals, ∀ n ∈ g.nonterminals, t.name ≠ n.name

section KeepsApart

variable (hg : KeepsApart g)
include hg

theorem name_notMem_of_mem_nonterminals {n : NonTerminal} (hn : n ∈ g.nonterminals) :
    n.name ∉ g.vocabulary.terminals.map Terminal.name := by
  intro h
  obtain ⟨t, ht, hname⟩ := List.mem_map.mp h
  exact hg t (List.mem_append_left _ ht) n hn hname

/-- A production is added as it is, however its body is written. -/
theorem perform_adding (hp : p ∈ g.productions.tail) {body : List String} (hbody : List.Forall₂ WrittenAs p.body body)
    {rules : List (NamedRule α)} :
    (knowing g rules).perform (adding p body) = .ok (knowing g (rules ++ [named p])) := by
  obtain ⟨hp, hne⟩ := Grammar.mem_tail_iff.mp hp
  have hrule : p.toRule ∈ g.rulebook.rules := (Grammar.eq_augmented_or_mem_rules hp).resolve_left hne
  have hhead : p.head.name ∉ (knowing g rules).terminals :=
    name_notMem_of_mem_nonterminals hg (Rulebook.mem_heads.mpr ⟨p.toRule, hrule, rfl⟩)
  have hres : ¬IsReserved p.head.name := by
    obtain ⟨e, he, hpe⟩ := List.mem_map.mp hrule
    have hunreserved := (g.rulebook.unreserved e he).1
    rwa [hpe] at hunreserved
  have hread : readSymbols p.head.name (knowing g rules).terminals body =
      ((knowing g rules).terminals, .ok (p.body.map Symbol.name)) :=
    readSymbols_written hbody fun t ht => name_mem_of_mem_body hp ht
  have hadd : (knowing g rules).add p.head.name body p.action = (knowing g (rules ++ [named p]), none) := by
    rw [add, if_neg hhead, if_neg hres, hread]
    rfl
  simp only [perform, adding, complaint?, apply, hadd]

/-- Productions are added one after the other. -/
theorem foldlM_perform_adding {ps : List (Production α)} {bodies : List (List String)}
    (hps : ∀ p ∈ ps, p ∈ g.productions.tail)
    (h : List.Forall₂ (fun p body => List.Forall₂ WrittenAs p.body body) ps bodies) {rules : List (NamedRule α)} :
    (List.zipWith adding ps bodies).foldlM perform (knowing g rules) = .ok (knowing g (rules ++ ps.map named)) := by
  induction h generalizing rules with
  | nil => simp [pure, Except.pure]
  | @cons p body ps bodies hbody _ ih =>
    rw [List.zipWith_cons_cons, List.foldlM_cons, perform_adding hg (hps p List.mem_cons_self) hbody]
    have hrest : (List.zipWith adding ps bodies).foldlM perform (knowing g (rules ++ [named p])) =
        .ok (knowing g (rules ++ [named p] ++ ps.map named)) := ih fun q hq => hps q (List.mem_cons_of_mem p hq)
    rw [List.append_assoc, List.singleton_append] at hrest
    exact hrest

/-- A name stands for the symbol of a body that has it. -/
theorem symbol_name {b : Builder α} (hb : b.terminals = g.vocabulary.terminals.map Terminal.name)
    (hp : p ∈ g.productions) {s : Symbol} (hs : s ∈ p.body) : b.symbol s.name = .ok s := by
  cases s with
  | terminal t =>
    have ht : t.name ∈ b.terminals := hb ▸ name_mem_of_mem_body hp hs
    rw [symbol, Symbol.name, if_pos ht, Symbol.ofName, Terminal.ofName_name]
    rfl
  | nonterminal n =>
    have hn : n.name ∉ b.terminals := hb ▸ name_notMem_of_mem_nonterminals hg (Grammar.defined_of_mem_body hp hs)
    rw [symbol, Symbol.name, if_neg hn, Symbol.ofName, NonTerminal.ofName_name]
    rfl

theorem form_named {b : Builder α} (hb : b.terminals = g.vocabulary.terminals.map Terminal.name)
    (hp : p ∈ g.productions) : b.form (named p) = .ok (.ofSymbols p.head p.body p.action) := by
  have hbody : (p.body.map Symbol.name).mapM b.symbol = .ok (p.body.map id) :=
    mapM_map_eq_ok fun s hs => symbol_name hg hb hp hs
  rw [List.map_id] at hbody
  simp only [form, named, NonTerminal.ofName_name, hbody]
  rfl

/-- What is built from the rules over names is the grammar. -/
theorem build_knowing : ((knowing g (g.productions.tail.map named)).setStart (some g.start.name)).build = .ok g := by
  have hforms : (g.productions.tail.map named).mapM
      ((knowing g (g.productions.tail.map named)).setStart (some g.start.name)).form =
        .ok (g.rulebook.entries.map fun e => .ofSymbols e.1.head e.1.body e.2) := by
    rw [← Grammar.tail_productions_map_entry, List.map_map]
    exact mapM_map_eq_ok fun p hp => form_named hg rfl (List.mem_of_mem_tail hp)
  have hterminals : (g.vocabulary.terminals.map Terminal.name).map (fun name => Datum.value (.plain (.text name))) =
      g.vocabulary.terminals.map fun t => .value (.plain (.text t.name)) := by
    rw [List.map_map]
    rfl
  have hread := Grammar.ofDefinition_written g
  rw [← hterminals] at hread
  simp only [build, setStart, knowing, bind, Except.bind] at hforms ⊢
  rw [hforms]
  exact hread

end KeepsApart

/-- **Every grammar that keeps its names apart is rebuilt**, however the terminals of single characters are written. -/
theorem build_rebuilding (hg : KeepsApart g) {bodies : List (List String)}
    (hbodies : List.Forall₂ (fun p body => List.Forall₂ WrittenAs p.body body) g.productions.tail bodies) :
    ∃ b b', Builder.new (g.vocabulary.terminals.map Terminal.name) = .ok b ∧
      (rebuilding g bodies).foldlM perform b = .ok b' ∧ b'.build = .ok g := by
  refine ⟨knowing g [], (knowing g (g.productions.tail.map named)).setStart (some g.start.name), new_names g, ?_,
    build_knowing hg⟩
  rw [rebuilding, List.foldlM_append, foldlM_perform_adding hg (fun _ hp => hp) hbodies]
  rfl

end Rebuilding

end Builder

namespace Quotations

open Builder

def single : Terminal := ⟨"'", by decide⟩

def double : Terminal := ⟨"\"", by decide⟩

/-- A terminal whose name has a blank in it. -/
def blank : Terminal := ⟨"a b", by decide⟩

/-- A terminal whose name starts with a quote. -/
def half : Terminal := ⟨"'a", by decide⟩

def equals : Terminal := ⟨"=", by decide⟩

def text : NonTerminal := ⟨"text", by decide⟩

/-- Texts between quotes of either kind, with names that a reader may trip over. -/
def grammar : Grammar Nat :=
  .make ⟨[half, single, equals, double, blank], by decide, by decide⟩
    ⟨[(⟨text, [single, text, single]⟩, some 1), (⟨text, [double, text, double]⟩, none),
      (⟨text, [half, equals, blank, equals]⟩, some 3), (⟨text, []⟩, none)], by decide, by decide⟩
    text (by decide) (by decide)

/-- The bodies as they may be written: a quote stands between quotes of either kind, other names stand for
themselves. -/
def bodies : List (List String) :=
  [["\"'\"", "text", "'''"], ["'\"'", "text", "\"\"\""], ["'a", "=", "a b", "'='"], []]

/-- The grammar is rebuilt from bodies in which its terminals are written in different ways. -/
theorem build_rebuilding_grammar : KeepsApart grammar ∧
    List.Forall₂ (fun (p : Production Nat) body => List.Forall₂ WrittenAs p.body body) grammar.productions.tail
      bodies ∧
    ∃ b b', Builder.new ["'a", "'", "=", "\"", "a b"] = .ok b ∧ (rebuilding grammar bodies).foldlM perform b = .ok b' ∧
      b'.build = .ok grammar := by
  have hapart : KeepsApart grammar := by
    unfold KeepsApart
    decide
  -- these symbols stand for themselves
  have hnames : ∀ s ∈ ([text, half, equals, blank] : List Symbol), ¬IsQuoted s.name := by decide +kernel
  have htext : WrittenAs text "text" := .name (hnames text (by decide))
  have hbodies : List.Forall₂ (fun (p : Production Nat) body => List.Forall₂ WrittenAs p.body body)
      grammar.productions.tail bodies :=
    .cons (.cons (.literal (c := '\'') (q := '"') rfl (by decide))
        (.cons htext (.cons (.literal (c := '\'') (q := '\'') rfl (by decide)) .nil)))
      (.cons (.cons (.literal (c := '"') (q := '\'') rfl (by decide))
          (.cons htext (.cons (.literal (c := '"') (q := '"') rfl (by decide)) .nil)))
        (.cons (.cons (.name (hnames half (by decide))) (.cons (.name (hnames equals (by decide)))
            (.cons (.name (hnames blank (by decide))) (.cons (.literal (c := '=') (q := '\'') rfl (by decide)) .nil))))
          (.cons .nil .nil)))
  exact ⟨hapart, hbodies, build_rebuilding hapart hbodies⟩

end Quotations

end CanonicalLR
