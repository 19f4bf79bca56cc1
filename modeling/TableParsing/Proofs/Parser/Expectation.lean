import TableParsing.Proofs.Parser.Recovery
import TableParsing.Proofs.Parser.Termination
import TableParsing.Proofs.Parser.ViablePrefix

/-! # What is expected

A syntax error names the terminals that its state has an action for.  Without precedence a canonical state has an
action in front of a terminal exactly if reductions come to where the terminal is taken
(`Machine.Decides.action_ne_error_iff`).  From this it follows both ways that **the first error of a run expects what
goes on** (`expected_exact`):

* what reductions come to is taken behind the same tokens, so they go on with it,
* in front of the token that is rejected no reduction has been made, as it would have come to where the token is taken.
  So the stack is the one behind the last token that was shifted, whatever token comes up there (`Machine.Awaits`), and
  from there a run over a token that goes on does not raise an error.

Merged states may have made reductions in front of the rejected token, and expect what may follow those. -/

namespace TableParsing

variable {α : Type} [Inhabited α]

namespace Machine
variable {machine : Machine α} {source other : TokenStream α} {c c' : Configuration α} {stack : List (Entry α)}
  {token : Token α} {n : Nat}

/-! ## Sources that begin alike -/

/-- A step looks at the next token of the source only. -/
theorem value_step_congr (same : (other c.read).value = (source c.read).value) :
    (machine.step other c).value = (machine.step source c).value := by
  by_cases known : c.lookahead.terminal < machine.table.actions.terminalCount
  · rw [step_eq known, step_eq known]
    split
    · rw [value_shift, value_shift]
      split
      · rfl
      · rw [value_advance, value_advance, same]
    · rfl
    · rfl
    · simp only [reject, discard]
      split
      · rfl
      · split
        · split
          · rfl
          · exact (value_advance.trans (by rw [same])).trans value_advance.symm
        · rfl
  · rw [step, step, if_pos (Nat.le_of_not_lt known), if_pos (Nat.le_of_not_lt known)]

/-- A step that goes on without the next token does not look at it. -/
theorem running_congr (running : (machine.step source c).value = .running c')
    (same : c.read < c'.read → (other c.read).value = (source c.read).value) :
    (machine.step other c).value = .running c' := by
  have known := known_of_running running
  cases step_of_running running with
  | shift | discard => exact (value_step_congr (same (Nat.lt_succ_self _))).trans running
  | shiftError action deferred => rw [step_eq known, action, value_shift, deferred]
  | reduce action =>
    rw [step_eq known, action] at running ⊢
    exact running
  | recover action deferred recovering =>
    rw [step_eq known, action] at running ⊢
    simp only [reject, deferred, recovering, Option.isSome_none, Bool.false_eq_true, if_false] at running ⊢
    exact running

/-- What a run reaches is told by the tokens that it has read. -/
theorem Reaches.congr (h : machine.Reaches source c) (same : ∀ m < c.read, (other m).value = (source m).value) :
    machine.Reaches other c := by
  induction h with
  | start read => exact .start ((same 0 Nat.one_pos).trans read)
  | @step c c' _ running ih =>
    have le : c.read ≤ c'.read := (Runs.single running).read_le
    refine .step (ih fun m lt => same m (Nat.lt_of_lt_of_le lt le)) (running_congr running fun lt => same _ lt)

/-- The stacks in front of which the next token comes up, whatever it is, with the number of tokens up to it. -/
inductive Awaits (machine : Machine α) (source : TokenStream α) : List (Entry α) → Nat → Prop
  | start : Awaits machine source [] 1
  | shift {stack : List (Entry α)} {lookahead : Token α} {n target : Nat}
      (reaches : machine.Reaches source (.clean stack lookahead n))
      (known : lookahead.terminal < machine.table.actions.terminalCount)
      (action : machine.action (topState stack) lookahead.terminal = .shift target) :
      Awaits machine source (⟨target, lookahead.value⟩ :: stack) (n + 1)

theorem Awaits.reaches (h : machine.Awaits source stack n)
    (same : ∀ m, m + 1 < n → (other m).value = (source m).value) (read : (other (n - 1)).value = .ok token) :
    machine.Reaches other (.clean stack token n) := by
  cases h with
  | start => exact .start read
  | shift reaches known action =>
    have earlier := reaches.congr fun m lt => same m (Nat.succ_lt_succ lt)
    exact .step earlier (running_shift known action read)

end Machine

/-! ## Where a terminal is taken -/

section Reductions
variable {grammar : Grammar α} {states : List Collection.State} {stack : List (Entry α)} {leaves : List (Token α)}
  {word next : List Symbol} {token : Token α} {t : Nat}

omit [Inhabited α] in
/-- A stack can be reduced as its word is. -/
theorem Supported.exists_reduced (automaton : grammar.cfg.IsAutomaton states)
    (supported : Supported grammar states stack leaves) (along : Along states stack word)
    (step : grammar.cfg.Reduces states t word next) :
    ∃ stack', Supported grammar states stack' leaves ∧ Along states stack' next := by
  obtain @⟨i, p, state, rule, after, hs, hr, allows⟩ := step
  cases along.stateAfter_eq.symm.trans after
  obtain ⟨production, hp⟩ : ∃ production, grammar.productions[p]? = some production :=
    Grammar.exists_production_of_resultOf? (by rw [Cfg.resultOf?_eq_some_iff.mpr ⟨rule, hr, rfl⟩]; rfl)
  cases hr.symm.trans (Grammar.getElem?_rules hp)
  obtain ⟨target, under, hunder, leads, supported'⟩ := supported.reduce automaton hs hp allows.has default
  exact ⟨_, supported', (along.drop _).push hunder leads⟩

omit [Inhabited α] in
/-- **What reductions come to is taken behind the leaves.** -/
theorem Supported.leadsTo_or_isSentence (automaton : grammar.cfg.IsAutomaton states)
    (supported : Supported grammar states stack leaves) (along : Along states stack word)
    (comes : grammar.cfg.ComesTo states token.terminal word) :
    grammar.LeadsTo leaves token ∨ token.terminal = endTerminal ∧ grammar.IsSentence leaves := by
  obtain ⟨last, reduces, acts⟩ := comes
  induction reduces using Relation.ReflTransGen.head_induction_on generalizing stack with
  | refl =>
    obtain ⟨i, state, after, hs, ⟨target, leads⟩ | ⟨atEnd, has⟩⟩ := acts
    · cases along.stateAfter_eq.symm.trans after
      obtain ⟨word', along', spanned⟩ := supported.exists_word
      obtain ⟨state', top, follows⟩ := along'.follows automaton
      cases hs.symm.trans top
      obtain ⟨core, viable, hnext⟩ := (automaton.exists_lookup_iff hs follows.spells).mp ⟨target, leads⟩
      exact .inl ⟨word', core, spanned, viable, hnext⟩
    · cases along.stateAfter_eq.symm.trans after
      obtain ⟨tree, hyield, -⟩ := supported.accept automaton hs has
      exact .inr ⟨atEnd, tree, hyield⟩
  | head step _ ih =>
    obtain ⟨stack', supported', along'⟩ := supported.exists_reduced automaton along step
    exact ih supported' along'

end Reductions

/-! ## Canonical states -/

namespace Machine.Decides
variable {grammar : Grammar α} {machine : Machine α} {source : TokenStream α} {c : Configuration α}
  {stack : List (Entry α)} {word : List Symbol} {tokens : List (Token α)} {token : Token α} {e : SyntaxError}
  {i t n : Nat} (decides : machine.Decides grammar false)
include decides

omit [Inhabited α] in
/-- **A canonical state has an action exactly if reductions come to where the terminal is taken.** -/
theorem action_ne_error_iff (after : Cfg.stateAfter (grammar.cfg.collection false) word = some i) :
    machine.action i t ≠ .error ↔ grammar.cfg.ComesTo (grammar.cfg.collection false) t word := by
  obtain ⟨wf, automaton, drives, -⟩ := id decides.realizes
  refine ⟨fun acts => ?_, fun comes action => decides.not_comesTo_of_error after action comes⟩
  cases action : machine.action i t with
  | shift next => exact ⟨word, .refl, decides.acts_of_shift after action⟩
  | reduce number =>
    obtain ⟨state, p, production, hs, hp, allows, -⟩ := decides.allows _ _ _ action
    have rule := Grammar.getElem?_rules hp
    have valid := (Cfg.allows_iff_valid wf after hs).mp allows
    exact valid.comesTo wf automaton (Cfg.ahead_length rule ▸ .nil)
  | accept =>
    obtain ⟨rfl, state, hs, has⟩ := drives.accept _ _ action
    exact ⟨word, .refl, i, state, after, hs, .inr ⟨rfl, has⟩⟩
  | error => exact absurd action acts

/-- **No reduction has been made in front of a token that is rejected.** -/
theorem awaits_of_error (reaches : machine.Reaches source c) (none : c.errors = 0)
    (action : machine.action (topState c.stack) c.lookahead.terminal = .error) :
    machine.Awaits source c.stack c.read := by
  obtain ⟨wf, automaton, drives, -⟩ := id decides.realizes
  cases reaches with
  | start => exact .start
  | @step before _ reaches running =>
    have known := known_of_running running
    have noneBefore : before.errors = 0 := Nat.eq_zero_of_le_zero (none ▸ (Runs.single running).errors_le)
    have clean := reaches.eq_clean noneBefore
    cases step_of_running running with
    | shift shifts _ _ =>
      rw [clean] at reaches
      exact .shift reaches known shifts
    | reduce reduces =>
      obtain ⟨leaves, supported⟩ := reaches.exists_supported grammar wf automaton drives
      obtain ⟨word, along, -⟩ := supported.exists_word
      have heeds : machine.Heeds grammar _ := decides.allows
      obtain ⟨stack, word', running', -, along', step⟩ :=
        heeds.exists_reduction source wf automaton drives supported along known reduces
      cases running.symm.trans running'
      -- the reduction comes to where the token is taken, so what it leaves does not reject the token
      have comes := (decides.action_ne_error_iff along.stateAfter_eq).mp fun error => nomatch reduces.symm.trans error
      exact absurd action ((decides.action_ne_error_iff along'.stateAfter_eq).mpr
        ((decides.comesTo_iff_of_reduces step).mp comes))
    | shiftError _ rejected =>
      rw [clean] at rejected
      cases rejected
    | discard _ _ recovering =>
      rw [clean] at recovering
      cases recovering
    | recover => cases none

/-- What goes on is expected in front of the next token. -/
theorem action_ne_error_of_goesOn (awaits : machine.Awaits source stack (tokens.length + 1))
    (begins : source.Begins tokens) (known : token.terminal < machine.table.actions.terminalCount)
    (goesOn : grammar.GoesOn tokens token) : machine.action (topState stack) token.terminal ≠ .error := by
  intro action
  -- the token takes the place of the one that was rejected
  let other : TokenStream α := fun m => if m < tokens.length then source m else ⟨.ok token, []⟩
  have begins' : other.Begins (tokens ++ [token]) := by
    refine TokenStream.Begins.snoc (fun m given hm => ?_) (congrArg Logged.value (if_neg (Nat.lt_irrefl _)))
    have lt := (List.getElem?_eq_some_iff.mp hm).1
    exact (congrArg Logged.value (if_pos lt)).trans (begins m given hm)
  have reaches : machine.Reaches other (.clean stack token (tokens.length + 1)) :=
    awaits.reaches (fun m lt => congrArg Logged.value (if_pos (Nat.lt_of_succ_lt_succ lt)))
      (congrArg Logged.value (if_neg (Nat.lt_irrefl _)))
  exact (raises_of_error known action).not_goesOn decides.realizes begins' reaches goesOn

/-- What is expected goes on. -/
theorem goesOn_of_action (productive : grammar.IsProductive) (noEnd : grammar.NeverMentionsEnd)
    (supported : Supported grammar (grammar.cfg.collection false) stack tokens)
    (action : machine.action (topState stack) token.terminal ≠ .error) : grammar.GoesOn tokens token := by
  obtain ⟨wf, automaton, -⟩ := id decides.realizes
  obtain ⟨word, along, -⟩ := supported.exists_word
  have comes := (decides.action_ne_error_iff along.stateAfter_eq).mp action
  rw [Grammar.GoesOn]
  rcases supported.leadsTo_or_isSentence automaton along comes with leads | ⟨atEnd, sentence⟩
  · rw [if_neg fun atEnd => noEnd.not_leadsTo atEnd leads]
    exact leads.beginsSentence productive wf
  · rwa [if_pos atEnd]

end Machine.Decides

omit [Inhabited α] in
/-- What goes on is a terminal of the grammar. -/
theorem Grammar.GoesOn.lt {grammar : Grammar α} {tokens : List (Token α)} {token : Token α}
    (wf : grammar.cfg.WellFormed) (h : grammar.GoesOn tokens token) : token.terminal < grammar.terminals.length := by
  rw [GoesOn] at h
  split at h
  · rename_i atEnd
    exact atEnd ▸ wf.endTerminal_lt
  · obtain ⟨rest, sentence⟩ := h
    rw [List.append_assoc] at sentence
    exact sentence.leadsTo.lt wf

/-! ## Parsers -/

/-- **The first error of a run expects what goes on**: with canonical states and without precedence it names the
terminals of the tokens that go on behind those that were shifted, each terminal once and in their order. -/
theorem expected_exact {grammar : Grammar α} (declared : grammar.Declared) (noPrecedence : grammar.HasNoPrecedence)
    (productive : grammar.IsProductive) (noEnd : grammar.NeverMentionsEnd) {options : ParserOptions}
    (canonical : options.mergeCores = false) {parser : Parser α}
    (compiled : (grammar.toParser options).run.value = .ok parser) {source : TokenStream α} {c : Configuration α}
    (reaches : parser.machine.Reaches source c) (none : c.errors = 0) {e : SyntaxError}
    (raises : parser.machine.Raises source c e) :
    ∃ (tokens : List (Token α)) (ts : List Nat), source.Begins (tokens ++ [c.lookahead]) ∧
      c.read = tokens.length + 1 ∧ Supported grammar (grammar.cfg.collection false) c.stack tokens ∧
      e.expected = ts.map grammar.terminalName ∧ ts.Pairwise (· < ·) ∧
      ∀ token : Token α, token.terminal ∈ ts ↔ grammar.GoesOn tokens token := by
  have decides := Grammar.decides_of_toParser declared noPrecedence compiled
  rw [canonical] at decides
  obtain ⟨wf, automaton, drives, -⟩ := id decides.realizes
  obtain ⟨tokens, begins, read, supported⟩ := reaches.supported wf automaton drives none
  rw [reaches.eq_clean none] at raises
  obtain ⟨known, action, rfl⟩ := raises.eq_syntaxError
  have awaits := read ▸ decides.awaits_of_error reaches none action
  refine ⟨tokens, parser.machine.table.actions.expected (topState c.stack), begins, read, supported, ?_, ?_,
    fun token => ?_⟩
  · obtain ⟨table, -, machine⟩ := Grammar.table_of_toParser compiled
    refine List.map_congr_left fun t _ => ?_
    rw [machine, Machine.terminalName, Grammar.terminalName, List.getD_eq_getElem?_getD]
    exact congrArg (·.getD "?") (List.getElem?_map ..)
  · exact List.Pairwise.filter _ List.pairwise_lt_range
  · rw [ActionTable.expected, List.mem_filter, List.mem_range, decide_eq_true_iff]
    constructor
    · rintro ⟨-, acts⟩
      exact decides.goesOn_of_action productive noEnd supported acts
    · intro goesOn
      have inside := drives.terminalCount_eq.symm ▸ goesOn.lt wf
      exact ⟨inside, decides.action_ne_error_of_goesOn awaits begins.of_append inside goesOn⟩

namespace letter

/-- Behind one letter there goes on the end of the input, and nothing else. -/
theorem goesOn_iff (value : Nat) (token : Token Nat) :
    letter.GoesOn [⟨2, "a", ⟨0, 1⟩, value⟩] token ↔ token.terminal = endTerminal := by
  rw [Grammar.GoesOn]
  split
  · rename_i atEnd
    exact iff_of_true ⟨letter.tree value, rfl⟩ atEnd
  · rename_i inside
    refine iff_of_false ?_ inside
    rintro ⟨rest, sentence⟩
    have := length_of_isSentence sentence
    simp at this

end letter

/-- A second letter is rejected, and the end of the input is all that is expected instead. -/
theorem expected_exact_letter : ∃ parser : Parser Nat, (letter.toParser .canonical).run.value = .ok parser ∧
    ∃ c e, parser.machine.Reaches letter.twice c ∧ c.errors = 0 ∧ parser.machine.Raises letter.twice c e ∧
      e.expected = ["$end"] := by
  obtain ⟨parser, compiled⟩ := letter.exists_toParser .canonical
  have decides := Grammar.decides_of_toParser letter.declared letter.hasNoPrecedence compiled
  have stuck : ¬letter.GoesOn [⟨2, "a", ⟨0, 1⟩, 7⟩] ⟨2, "a", ⟨1, 2⟩, 8⟩ := fun goesOn =>
    absurd ((letter.goesOn_iff 7 _).mp goesOn) (by decide)
  obtain ⟨c, e, reaches, none, read, raises⟩ := decides.raisesFirst letter.isProductive letter.neverMentionsEnd
    letter.begins_twice (by decide) ⟨[], letter.tree 7, rfl⟩ stuck
  obtain ⟨tokens, ts, begins, read', -, names, ascending, exact_⟩ := expected_exact letter.declared
    letter.hasNoPrecedence letter.isProductive letter.neverMentionsEnd rfl compiled reaches none raises
  refine ⟨parser, compiled, c, e, reaches, none, raises, ?_⟩
  have same : tokens = [⟨2, "a", ⟨0, 1⟩, 7⟩] :=
    begins.of_append.eq_of_length letter.begins_twice.of_append (Nat.succ.inj (read'.symm.trans read))
  subst same
  have only (t : Nat) : t ∈ ts ↔ t = endTerminal := (exact_ ⟨t, "", ⟨0, 0⟩, 0⟩).trans (letter.goesOn_iff 7 _)
  have one : ts = [endTerminal] := by
    refine List.perm_singleton.mp ((List.perm_ext_iff_of_nodup ?_ (List.nodup_singleton _)).mpr fun t => ?_)
    · exact ascending.imp Nat.ne_of_lt
    · rw [only, List.mem_singleton]
  rw [names, one]
  rfl

end TableParsing
