import TableParsing.Proofs.Parser.Correctness
import TableParsing.Proofs.Parser.Outcome

/-! # Errors are found where they are

As long as no token has been rejected, **the tokens that have been shifted begin a sentence**: they are the leaves of a
viable word, and what such a word lacks can be supplied.  This holds with precedence too, whether cores are merged or
not, so no error is found late.

Without precedence no error is found early either.  A token that goes on with the tokens in front of it is shifted, and
the end of the input behind a sentence is accepted, so **the first syntax error is raised at the first token that does
not go on** (`viable_until_first_error`).  Merged states may reduce in front of such a token, but they do not shift
it. -/

namespace TableParsing

variable {α : Type}

/-- Whether tokens go on with another one: the end of the input stands behind a sentence, any other token in one. -/
def Grammar.GoesOn (grammar : Grammar α) (tokens : List (Token α)) (next : Token α) : Prop :=
  if next.terminal = endTerminal then grammar.IsSentence tokens else grammar.BeginsSentence (tokens ++ [next])

variable [Inhabited α]

/-- Whether a run raises its first syntax error in front of the token with a number. -/
def Machine.RaisesFirst (machine : Machine α) (source : TokenStream α) (n : Nat) : Prop :=
  ∃ c e, machine.Reaches source c ∧ c.errors = 0 ∧ c.read = n + 1 ∧ machine.Raises source c e

/-- Whether a run ends in front of the token with a number, as the grammar has no such terminal. -/
def Machine.EndsUnknown (machine : Machine α) (source : TokenStream α) (n : Nat) : Prop :=
  ∃ c, machine.Reaches source c ∧ c.errors = 0 ∧ c.read = n + 1 ∧
    (machine.step source c).value = .finished (.error (.unknownToken c.lookahead.terminal))

section Prefixes
variable {grammar : Grammar α} {states : List Collection.State} {machine : Machine α} {mergeCores : Bool}
  {source : TokenStream α} {stack : List (Entry α)} {tokens : List (Token α)} {next : Token α}

/-- **The leaves of a stack begin a sentence.** -/
theorem Supported.beginsSentence (wf : grammar.cfg.WellFormed) (automaton : grammar.cfg.IsAutomaton states)
    (productive : grammar.IsProductive) (h : Supported grammar states stack tokens) :
    grammar.BeginsSentence tokens := by
  obtain ⟨word, along, spanned⟩ := h.exists_word
  obtain ⟨core, viable⟩ := along.exists_viable automaton
  exact spanned.beginsSentence productive wf viable

/-- Where a run raises its first syntax error it has taken the tokens in front of it. -/
theorem Machine.RaisesFirst.exists_clean (wf : grammar.cfg.WellFormed) (automaton : grammar.cfg.IsAutomaton states)
    (drives : machine.Drives grammar states) (begins : source.Begins (tokens ++ [next]))
    (h : machine.RaisesFirst source tokens.length) : ∃ stack e, Supported grammar states stack tokens ∧
      machine.Reaches source (.clean stack next (tokens.length + 1)) ∧
      machine.Raises source (.clean stack next (tokens.length + 1)) e := by
  obtain ⟨c, e, reaches, none, read, raises⟩ := h
  obtain ⟨others, begins', read', supported⟩ := reaches.supported wf automaton drives none
  have same := begins.eq_of_length begins' (by
    rw [List.length_append, List.length_append, Nat.succ.inj (read.symm.trans read')]
    rfl)
  obtain ⟨rfl, hnext⟩ := List.append_inj' same rfl
  have clean := reaches.eq_clean none
  rw [read, ← List.singleton_inj.mp hnext] at clean
  rw [clean] at reaches raises
  exact ⟨c.stack, e, supported, reaches, raises⟩

/-- Where a syntax error is raised the tokens do not go on. -/
theorem Machine.Raises.not_goesOn {e : SyntaxError} (realizes : machine.Realizes grammar states)
    (begins : source.Begins (tokens ++ [next]))
    (reaches : machine.Reaches source (.clean stack next (tokens.length + 1)))
    (raises : machine.Raises source (.clean stack next (tokens.length + 1)) e) : ¬grammar.GoesOn tokens next := by
  have start : machine.Reaches source (.clean [] (tokens.headD next) 1) := .start begins.continues.head
  rw [Grammar.GoesOn]
  split
  · -- the run over a sentence ends by accepting
    rename_i atEnd
    rintro ⟨tree, rfl⟩
    obtain ⟨finish, runs, none, finished⟩ := tree.runs_begin realizes atEnd begins
    have same := raises.eq_of_reaches reaches (start.runs_from runs) none fun c' running => by
      rw [finished] at running
      cases running
    rw [same, Machine.Raises, finished] at raises
    rcases raises with finished | ⟨c', running, -⟩
    · cases finished
    · cases running
  · -- and a run within a sentence comes to shift the token
    rintro ⟨rest, sentence⟩
    rw [List.append_assoc] at sentence
    obtain ⟨n, stack, target, runs, action⟩ := sentence.leadsTo.runs realizes begins
    have same := raises.eq_of_reaches reaches (start.runs_from runs) rfl fun c' running => by
      cases Machine.step_of_running running with
      | shift => exact Nat.lt_succ_self _
      | shiftError _ rejected => cases rejected
      | reduce reduce => cases action.symm.trans reduce
      | discard error => cases action.symm.trans error
      | recover error => cases action.symm.trans error
    rw [same] at raises
    cases action.symm.trans raises.eq_syntaxError.2.1

/-- Where the tokens do not go on a syntax error is raised. -/
theorem Machine.Decides.raisesFirst (decides : machine.Decides grammar mergeCores) (productive : grammar.IsProductive)
    (noEnd : grammar.NeverMentionsEnd) (begins : source.Begins (tokens ++ [next]))
    (known : next.terminal < grammar.terminals.length) (viable : grammar.BeginsSentence tokens)
    (stuck : ¬grammar.GoesOn tokens next) : machine.RaisesFirst source tokens.length := by
  obtain ⟨wf, automaton, drives, -⟩ := id decides.realizes
  rw [Grammar.GoesOn] at stuck
  have misfit : ¬grammar.LeadsTo tokens next := by
    split at stuck
    · rename_i atEnd
      exact noEnd.not_leadsTo atEnd
    · exact fun leads => stuck (leads.beginsSentence productive wf)
  have unfinished (atEnd : next.terminal = endTerminal) : ¬grammar.IsSentence tokens := by rwa [if_pos atEnd] at stuck
  obtain ⟨n, stack, runs, action⟩ := viable.fits.exists_error decides begins known misfit unfinished
  rw [← drives.terminalCount_eq] at known
  have reaches := (Machine.Reaches.start begins.continues.head).runs_from runs
  exact ⟨_, _, reaches, rfl, rfl, Machine.raises_of_error known action⟩

/-- In front of a token that the grammar does not have the run ends with it. -/
theorem Grammar.Fits.endsUnknown (realizes : machine.Realizes grammar states) (fits : grammar.Fits tokens)
    (begins : source.Begins (tokens ++ [next])) (unknown : grammar.terminals.length ≤ next.terminal) :
    machine.EndsUnknown source tokens.length := by
  obtain ⟨n, stack, -, runs⟩ := fits.runs realizes begins
  rw [← realizes.drives.terminalCount_eq] at unknown
  exact ⟨_, (Machine.Reaches.start begins.continues.head).runs_from runs, rfl, rfl, Machine.finished_unknown unknown⟩

end Prefixes

/-- **A parser shifts only what begins a sentence, and finds the first error at the first token that does not go on.**
With precedence it may find an error before.  If the grammar does not have the terminal of the token, the run ends with
that instead of a syntax error. -/
theorem viable_until_first_error {grammar : Grammar α} (declared : grammar.Declared) (productive : grammar.IsProductive)
    (noEnd : grammar.NeverMentionsEnd) {options : ParserOptions} {parser : Parser α}
    (compiled : (grammar.toParser options).run.value = .ok parser) (source : TokenStream α) :
    (∀ c, parser.machine.Reaches source c → c.errors = 0 → ∃ tokens, source.Begins (tokens ++ [c.lookahead]) ∧
      c.read = tokens.length + 1 ∧ grammar.BeginsSentence tokens ∧
      ∀ target, parser.machine.action (topState c.stack) c.lookahead.terminal = .shift target →
        grammar.BeginsSentence (tokens ++ [c.lookahead])) ∧
    (grammar.HasNoPrecedence → ∀ tokens next, source.Begins (tokens ++ [next]) →
      (parser.machine.RaisesFirst source tokens.length ↔ next.terminal < grammar.terminals.length ∧
        grammar.BeginsSentence tokens ∧ ¬grammar.GoesOn tokens next) ∧
      (grammar.terminals.length ≤ next.terminal → grammar.BeginsSentence tokens →
        parser.machine.EndsUnknown source tokens.length)) := by
  have wf := declared.wellFormed
  obtain ⟨table, built, machine⟩ := Grammar.table_of_toParser compiled
  have automaton := Cfg.isAutomaton_collection wf options.mergeCores
  have drives : parser.machine.Drives grammar (grammar.cfg.collection options.mergeCores) :=
    machine ▸ Machine.drives_ofGrammar built options automaton
  refine ⟨fun c reaches none => ?_, fun noPrecedence tokens next begins => ⟨⟨fun raises => ?_, ?_⟩, ?_⟩⟩
  · obtain ⟨tokens, begins, read, supported⟩ := reaches.supported wf automaton drives none
    refine ⟨tokens, begins, read, supported.beginsSentence wf automaton productive, fun target action => ?_⟩
    exact (drives.leadsTo_of_shift automaton supported action).beginsSentence productive wf
  · have realizes := Grammar.realizes_of_toParser declared noPrecedence compiled
    obtain ⟨stack, e, supported, reaches, raises⟩ := raises.exists_clean wf automaton drives begins
    exact ⟨drives.terminalCount_eq ▸ raises.eq_syntaxError.1, supported.beginsSentence wf automaton productive,
      raises.not_goesOn realizes begins reaches⟩
  · rintro ⟨known, viable, stuck⟩
    have decides := Grammar.decides_of_toParser declared noPrecedence compiled
    exact decides.raisesFirst productive noEnd begins known viable stuck
  · intro unknown viable
    exact viable.fits.endsUnknown (Grammar.realizes_of_toParser declared noPrecedence compiled) begins unknown

namespace letter

theorem isProductive : letter.IsProductive := by
  intro n hn
  obtain rfl : n = 0 := Nat.lt_one_iff.mp hn
  exact ⟨tree default⟩

theorem neverMentionsEnd : letter.NeverMentionsEnd := by decide

theorem length_of_isSentence {tokens : List (Token Nat)} (h : letter.IsSentence tokens) : tokens.length = 1 := by
  obtain ⟨tree, rfl⟩ := h
  obtain ⟨p, production, children, there, -, hyield⟩ := tree.exists_children rfl
  cases List.mem_singleton.mp (List.mem_of_getElem? there)
  rw [hyield]
  match children with
  | .cons first .nil =>
    obtain ⟨token, hfirst, -⟩ := first.exists_token rfl
    rw [Grammar.Forest.yield, Grammar.Forest.yield, hfirst]
    rfl

/-- Two tokens, and the end of the input behind them. -/
def twice : TokenStream Nat := .ofList [.ok ⟨2, "a", ⟨0, 1⟩, 7⟩, .ok ⟨2, "a", ⟨1, 2⟩, 8⟩]

theorem begins_twice : twice.Begins ([⟨2, "a", ⟨0, 1⟩, 7⟩] ++ [⟨2, "a", ⟨1, 2⟩, 8⟩]) := by
  intro i token hi
  match i with
  | 0 | 1 => exact congrArg Except.ok (Option.some.inj hi)

end letter

theorem viable_until_first_error_letter : ∃ parser : Parser Nat, (letter.toParser {}).run.value = .ok parser ∧
    parser.machine.RaisesFirst letter.twice 1 := by
  obtain ⟨parser, compiled⟩ := letter.exists_toParser {}
  have viable := viable_until_first_error letter.declared letter.isProductive letter.neverMentionsEnd compiled
    letter.twice
  have first := (viable.2 letter.hasNoPrecedence _ _ letter.begins_twice).1
  refine ⟨parser, compiled, first.mpr ⟨by decide, ⟨[], letter.tree 7, rfl⟩, ?_⟩⟩
  -- a second letter makes the text too long
  rintro ⟨rest, sentence⟩
  have := letter.length_of_isSentence sentence
  simp at this

end TableParsing
