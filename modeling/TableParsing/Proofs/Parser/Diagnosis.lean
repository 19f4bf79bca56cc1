import TableParsing.Proofs.Parser.Attribution

/-! # The error that is returned

A run returns a syntax error for one of three reasons (`Machine.GivesUp`): an error is detected and no recovery can
begin, the error token of a recovery is rejected, or the end of the input comes up while tokens are being left out.  For
the last two a step finds another token that does not fit.  It does not make an error of it, but returns the error at
hand, and there is one, as nothing is deferred and no token left out before the first recovery
(`Machine.Reaches.exists_latest`).

An error that is detected ends the run or is counted.  So the counts tell in which order errors were detected, and the
error at hand is the one with the last count.  **What a parse returns is the error that was detected last**
(`returned_error_detected_last`). -/

namespace TableParsing

variable {α : Type} [Inhabited α]

namespace Machine
variable {machine : Machine α} {source : TokenStream α} {c c' last : Configuration α} {e : SyntaxError} {n : Nat}

/-! ## Giving up -/

/-- Why a step returns a syntax error, and which. -/
inductive GivesUp (machine : Machine α) (c : Configuration α) : SyntaxError → Prop
  /-- An error is detected, and no recovery can begin. -/
  | refuse (detects : machine.Detects c)
      (refused : machine.options.errorRecovery = false ∨ machine.options.maxErrors ≤ c.errors ∨
        machine.unwind? c.stack = none) : GivesUp machine c (machine.detected c)
  /-- The error token is rejected. -/
  | strand {rejected : Token α} (action : machine.action (topState c.stack) c.lookahead.terminal = .error)
      (deferred : c.deferred = some rejected) : GivesUp machine c (c.pending.getD (machine.detected c))
  /-- There is nothing behind the tokens that were left out. -/
  | runOut (action : machine.action (topState c.stack) c.lookahead.terminal = .error) (deferred : c.deferred = none)
      (recovering : c.recovering = true) (atEnd : c.lookahead.terminal = endTerminal) :
      GivesUp machine c (c.pending.getD (machine.detected c))

/-- **A step returns a syntax error for one of three reasons.** -/
theorem givesUp_of_finished (finished : (machine.step source c).value = .finished (.error (.syntaxError e))) :
    machine.GivesUp c e := by
  cases stop_of_finished finished with
  | failure known action lost =>
    rcases lost with deferred | ⟨deferred, recovering, atEnd⟩
    · obtain ⟨rejected, deferred⟩ := Option.isSome_iff_exists.mp deferred
      exact .strand action deferred
    · exact .runOut action deferred recovering atEnd
  | refuse known action deferred recovering refused =>
    refine .refuse ⟨known, action, deferred, recovering⟩ ?_
    cases recovers : machine.options.errorRecovery with
    | false => exact .inl rfl
    | true =>
      by_cases spent : machine.options.maxErrors ≤ c.errors
      · exact .inr (.inl spent)
      · rw [recovers, Bool.true_and, if_pos (decide_eq_true (Nat.lt_of_not_le spent))] at refused
        exact .inr (.inr refused)

variable (source) in
/-- At the end of the input a recovery has run out of tokens. -/
theorem finished_of_atEnd (known : c.lookahead.terminal < machine.table.actions.terminalCount)
    (action : machine.action (topState c.stack) c.lookahead.terminal = .error) (deferred : c.deferred = none)
    (recovering : c.recovering = true) (atEnd : c.lookahead.terminal = endTerminal) (pending : c.pending = some e) :
    (machine.step source c).value = .finished (.error (.syntaxError e)) := by
  rw [step_eq known, action, reject, deferred, recovering, discard, if_pos atEnd, failure, pending]
  rfl

/-! ## The order of detections -/

/-- Nothing is deferred and no token left out before the first recovery. -/
theorem Reaches.errors_ne_zero (reaches : machine.Reaches source c)
    (busy : c.deferred.isSome ∨ c.recovering = true) : c.errors ≠ 0 := by
  intro none
  rw [reaches.eq_clean none] at busy
  rcases busy with busy | busy <;> cases busy

/-- **Behind the first recovery the error at hand is the one with the last count.** -/
theorem Reaches.exists_latest (reaches : machine.Reaches source c) (some : c.errors ≠ 0) :
    ∃ origin, machine.Blames source origin ∧ c.pending = .some (machine.detected origin) ∧
      c.errors = origin.errors + 1 := by
  obtain ⟨origins, records⟩ := reaches.exists_records {} (Origins.next machine)
  have attributed : Attributed machine source origins c := Attributes.attributed records
  have errors_eq := attributed.errors_eq
  have pending_eq := attributed.pending_eq
  cases latest : origins.latest with
  | none =>
    rw [latest] at errors_eq
    exact absurd errors_eq some
  | some origin =>
    rw [latest] at errors_eq pending_eq
    exact ⟨origin, attributed.latest origin latest, pending_eq, errors_eq⟩

/-- A run that goes on from a detection counts it. -/
theorem Detects.errors_lt (detects : machine.Detects c) (runs : machine.Runs source (n + 1) c last) :
    c.errors < last.errors := by
  cases runs with
  | step running runs =>
    have le := runs.errors_le
    cases step_of_running running with
    | shift action | shiftError action | reduce action => cases detects.action.symm.trans action
    | discard _ _ recovering => cases detects.recovering.symm.trans recovering
    | recover => exact le

/-- Errors are detected in the order of their counts. -/
theorem Blames.exists_runs (h : machine.Blames source c) (h' : machine.Blames source c')
    (le : c.errors ≤ c'.errors) : ∃ n, machine.Runs source n c c' := by
  rcases h.reaches.linear h'.reaches with runs | ⟨n, runs⟩
  · exact runs
  · cases n with
    | zero =>
      cases runs
      exact ⟨0, .refl _⟩
    | succ n => exact absurd le (Nat.not_le.mpr (h'.detects.errors_lt runs))

/-- Whether an error was detected in a run, and none after it until the run came to a configuration. -/
structure DetectedLast (machine : Machine α) (source : TokenStream α) (origin c : Configuration α) : Prop
    extends machine.Blames source origin where
  runs : ∃ n, machine.Runs source n origin c
  last : ∀ other n, machine.Blames source other → machine.Runs source n other c →
    ∃ m, machine.Runs source m other origin

/-- Where there is an error at hand that has to be returned, it was detected last. -/
theorem Reaches.exists_detectedLast (reaches : machine.Reaches source c)
    (busy : c.deferred.isSome ∨ c.recovering = true) :
    ∃ origin, machine.DetectedLast source origin c ∧ c.pending = some (machine.detected origin) := by
  obtain ⟨origin, blames, pending, errors⟩ := reaches.exists_latest (reaches.errors_ne_zero busy)
  refine ⟨origin, ⟨blames, ?_, fun other n blames' runs => blames'.exists_runs blames ?_⟩, pending⟩
  · rcases blames.reaches.linear reaches with runs | ⟨n, runs⟩
    · exact runs
    · have := runs.errors_le
      omega
  · cases n with
    | zero =>
      -- the configuration itself does not detect an error
      cases runs
      rcases busy with busy | busy
      · rw [blames'.detects.deferred] at busy
        cases busy
      · cases blames'.detects.recovering.symm.trans busy
    | succ n =>
      have := blames'.detects.errors_lt runs
      omega

/-- What is returned by a run that gives up was detected last. -/
theorem GivesUp.exists_detectedLast (givesUp : machine.GivesUp last e) (reaches : machine.Reaches source last) :
    ∃ origin, machine.DetectedLast source origin last ∧ e = machine.detected origin := by
  cases givesUp with
  | refuse detects => exact ⟨last, ⟨⟨reaches, detects⟩, ⟨0, .refl _⟩, fun _ n _ runs => ⟨n, runs⟩⟩, rfl⟩
  | strand _ deferred =>
    obtain ⟨origin, detectedLast, pending⟩ := reaches.exists_detectedLast (.inl (by rw [deferred]; rfl))
    exact ⟨origin, detectedLast, by rw [pending, Option.getD_some]⟩
  | runOut _ _ recovering =>
    obtain ⟨origin, detectedLast, pending⟩ := reaches.exists_detectedLast (.inr recovering)
    exact ⟨origin, detectedLast, by rw [pending, Option.getD_some]⟩

end Machine

/-- **What a parse returns is the error that was detected last**, whatever it was that ended the run.  Where a run may
give up without a detection there is an error at hand, the one that was detected last until then. -/
theorem returned_error_detected_last (machine : Machine α) (source : TokenStream α) :
    (∀ limit e, (machine.parse source limit).value = some (.error (.syntaxError e)) →
      ∃ origin last, machine.Reaches source origin ∧ machine.Detects origin ∧ e = machine.detected origin ∧
        (∀ other, machine.Reaches source other → machine.Detects other → ∃ n, machine.Runs source n other origin) ∧
        (∃ n, machine.Runs source n origin last) ∧ machine.GivesUp last e) ∧
    ∀ c, machine.Reaches source c → c.deferred.isSome ∨ c.recovering = true →
      ∃ origin, machine.DetectedLast source origin c ∧ c.pending = some (machine.detected origin) := by
  refine ⟨fun limit e parsed => ?_, fun c reaches busy => reaches.exists_detectedLast busy⟩
  obtain ⟨last, reaches, finished⟩ := Machine.exists_finish_of_value_parse parsed nofun
  have givesUp := Machine.givesUp_of_finished finished
  obtain ⟨origin, detectedLast, same⟩ := givesUp.exists_detectedLast reaches
  refine ⟨origin, last, detectedLast.reaches, detectedLast.detects, same, fun other reaches' detects => ?_,
    detectedLast.runs, givesUp⟩
  -- the run comes through all its detections before it ends
  obtain ⟨first, n, read, whole⟩ := reaches.exists_runs
  obtain ⟨m, before⟩ := Machine.Reaches.runs read whole finished reaches'
  exact detectedLast.last other m ⟨reaches', detects⟩ before

namespace nested

/-- No token at all. -/
def silence : TokenStream String := .ofList []

/-- The end of the input does not fit, as an error is to come first. -/
def silent : Configuration String := .clean [] stop 1

/-- The error token is taken.  Then the letter x is to come, and there is only the end of the input again. -/
theorem exists_runs_silent {parser : Parser String} (compiled : (nested.toParser {}).run.value = .ok parser) :
    parser.machine.Detects silent ∧ ∃ last, parser.machine.Runs silence 2 silent last ∧ last.recovering = true ∧
      (parser.machine.step silence last).value =
        .finished (.error (.syntaxError (parser.machine.detected silent))) := by
  have decides := Grammar.decides_of_toParser declared hasNoPrecedence compiled
  obtain ⟨i, j, k, turns, -⟩ := exists_turns compiled
  obtain ⟨i', error, along⟩ := decides.realizes.exists_target .bottom viable_first rfl
  cases turns.takes_error.symm.trans error
  have known : endTerminal < parser.machine.table.actions.terminalCount :=
    turns.terminalCount_eq ▸ (by decide : endTerminal < 3)
  have detects : parser.machine.Detects silent := ⟨known, action_eq_error decides .bottom (by decide), rfl, rfl⟩
  have begins : (parser.machine.step silence silent).value = .running (parser.machine.recovery silent []) :=
    detects.running silence (by rw [turns.options_eq]) (by rw [turns.options_eq]; exact (by decide : 0 < 100))
      (Machine.unwind?_of_acts fun idle => nomatch idle.symm.trans turns.takes_error)
  have takesError : (parser.machine.step silence (parser.machine.recovery silent [])).value =
      .running { parser.machine.recovery silent [] with
        stack := [⟨i, default⟩]
        lookahead := stop
        deferred := none
        recovering := true } :=
    Machine.running_shiftError rfl rfl turns.known_error turns.takes_error
  have rejects : parser.machine.action i endTerminal = .error := action_eq_error decides (along default) (by decide)
  exact ⟨detects, _, .step begins (.single takesError), rfl,
    Machine.finished_of_atEnd silence known rejects rfl rfl rfl rfl⟩

end nested

/-- Without a token the end of the input is rejected twice, and the first time is told of. -/
theorem returned_error_detected_last_nested : ∃ parser : Parser String, (nested.toParser {}).run.value = .ok parser ∧
    (parser.machine.parse nested.silence 3).value =
      some (.error (.syntaxError (parser.machine.detected nested.silent))) ∧
    (∃ origin, parser.machine.Detects origin ∧ parser.machine.detected nested.silent = parser.machine.detected origin ∧
      ∃ n, parser.machine.Runs nested.silence n nested.silent origin) ∧
    ∃ c origin, c.recovering = true ∧ parser.machine.DetectedLast nested.silence origin c ∧
      c.pending = some (parser.machine.detected origin) := by
  obtain ⟨parser, compiled⟩ := nested.exists_toParser {}
  obtain ⟨detects, last, runs, recovering, finished⟩ := nested.exists_runs_silent compiled
  have start : parser.machine.Reaches nested.silence nested.silent := .start rfl
  obtain ⟨returned, busy⟩ := returned_error_detected_last parser.machine nested.silence
  have parsed : (parser.machine.parse nested.silence 3).value =
      some (.error (.syntaxError (parser.machine.detected nested.silent))) := by
    rw [Machine.value_parse]
    exact runs.finish finished (by decide) _
  obtain ⟨origin, last', -, detects', same, rest, -⟩ := returned 3 _ parsed
  obtain ⟨origin', detectedLast, pending⟩ := busy last (start.runs_from runs) (.inr recovering)
  exact ⟨parser, compiled, parsed, ⟨origin, detects', same, rest _ start detects⟩, last, origin', recovering,
    detectedLast, pending⟩

end TableParsing
