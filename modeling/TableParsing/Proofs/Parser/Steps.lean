import TableParsing.Parser.Run

/-! # What a step can do

A step goes on in one of five ways (`Machine.Step`), or it finishes the run in one of six (`Machine.Stop`).  A run with a
result has **reached** a configuration in which a step finishes with that result (`exists_finish_of_parse`). -/

namespace TableParsing

variable {α : Type}

/-- Whether the stream begins with some tokens. -/
def TokenStream.Begins (source : TokenStream α) (tokens : List (Token α)) : Prop :=
  ∀ (i : Nat) token, tokens[i]? = some token → (source i).value = .ok token

theorem TokenStream.Begins.snoc {source : TokenStream α} {tokens : List (Token α)} {token : Token α}
    (h : source.Begins tokens) (ht : (source tokens.length).value = .ok token) :
    source.Begins (tokens ++ [token]) := by
  intro i other hi
  rw [List.getElem?_append] at hi
  split at hi
  · exact h i other hi
  · rename_i bound
    obtain ⟨hlt, hi⟩ := List.getElem?_eq_some_iff.mp hi
    have last : i = tokens.length := by
      rw [List.length_singleton] at hlt
      omega
    subst last
    simp only [Nat.sub_self, List.getElem_cons_zero] at hi
    exact hi ▸ ht

namespace Machine
variable {machine : Machine α} {source : TokenStream α} {c c' : Configuration α}

/-- The error token that is put in front of a rejected token. -/
def errorToken [Inhabited α] (rejected : Token α) : Token α :=
  ⟨errorTerminal, "", .emptyAt rejected.span.start.toNat, default⟩

/-- How a step goes on. -/
inductive Step [Inhabited α] (machine : Machine α) (source : TokenStream α) (c : Configuration α) :
    Configuration α → Prop
  /-- The lookahead is taken, and the next token comes up. -/
  | shift {next : Nat} {token : Token α}
      (action : machine.action (topState c.stack) c.lookahead.terminal = .shift next)
      (deferred : c.deferred = none) (read : (source c.read).value = .ok token) :
      Step machine source c { c with
        stack := ⟨next, c.lookahead.value⟩ :: c.stack
        lookahead := token
        recovering := false
        read := c.read + 1 }
  /-- The error token is taken, and the rejected token comes up again. -/
  | shiftError {next : Nat} {token : Token α}
      (action : machine.action (topState c.stack) c.lookahead.terminal = .shift next)
      (deferred : c.deferred = some token) :
      Step machine source c { c with
        stack := ⟨next, c.lookahead.value⟩ :: c.stack
        lookahead := token
        deferred := none
        recovering := true }
  /-- A production is reduced. -/
  | reduce {number next : Nat} {reduction : Reduction} {action : SemanticAction α}
      (reduce : machine.action (topState c.stack) c.lookahead.terminal = .reduce number)
      (hreduction : machine.table.reductions[number]? = some reduction)
      (haction : machine.semantics[number]? = some action)
      (goto : machine.table.gotos.get? (topState (c.stack.drop reduction.popCount)) reduction.result =
        some next) :
      Step machine source c { c with
        stack := ⟨next, machine.reduceValue c action (topState (c.stack.drop reduction.popCount))
          ((c.stack.take reduction.popCount).map (·.value)).reverse⟩ :: c.stack.drop reduction.popCount }
  /-- A token is left out. -/
  | discard {token : Token α}
      (action : machine.action (topState c.stack) c.lookahead.terminal = .error)
      (deferred : c.deferred = none) (recovering : c.recovering = true)
      (read : (source c.read).value = .ok token) :
      Step machine source c { c with lookahead := token, read := c.read + 1 }
  /-- A recovery begins. -/
  | recover {stack : List (Entry α)}
      (action : machine.action (topState c.stack) c.lookahead.terminal = .error)
      (deferred : c.deferred = none) (recovering : c.recovering = false)
      (unwound : machine.unwind? c.stack = some stack) :
      Step machine source c { c with
        stack
        lookahead := errorToken c.lookahead
        deferred := some c.lookahead
        pending := some (machine.syntaxError (topState c.stack) c.lookahead)
        errors := c.errors + 1 }

/-- How a step finishes the run. -/
inductive Stop [Inhabited α] (machine : Machine α) (source : TokenStream α) (c : Configuration α) :
    Except ParseError α → Prop
  /-- The lookahead is of no terminal of the table. -/
  | unknown (unknown : machine.table.actions.terminalCount ≤ c.lookahead.terminal) :
      Stop machine source c (.error (.unknownToken c.lookahead.terminal))
  /-- The lookahead is taken or left out, and the source has no token behind it. -/
  | lexer {e : ScanError} (deferred : c.deferred = none) (read : (source c.read).value = .error e) :
      Stop machine source c (.error (.lexer e))
  /-- A reduction has no rule, or no state behind it. -/
  | missingGoto {number state : Nat} {symbol : String}
      (reduce : machine.action (topState c.stack) c.lookahead.terminal = .reduce number)
      (missing : ∀ reduction action, machine.table.reductions[number]? = some reduction →
        machine.semantics[number]? = some action →
        machine.table.gotos.get? (topState (c.stack.drop reduction.popCount)) reduction.result = none) :
      Stop machine source c (.error (.missingGoto state symbol))
  /-- The value on top of the stack is accepted. -/
  | accept (accept : machine.action (topState c.stack) c.lookahead.terminal = .accept) :
      Stop machine source c (.ok ((c.stack.head?.map (·.value)).getD default))
  /-- A recovery comes to nothing: the error token is rejected, or the input is at its end. -/
  | failure (known : c.lookahead.terminal < machine.table.actions.terminalCount)
      (action : machine.action (topState c.stack) c.lookahead.terminal = .error)
      (lost : c.deferred.isSome ∨ c.deferred = none ∧ c.recovering = true ∧ c.lookahead.terminal = endTerminal) :
      Stop machine source c
        (.error (.syntaxError (c.pending.getD (machine.syntaxError (topState c.stack) c.lookahead))))
  /-- No recovery begins. -/
  | refuse (known : c.lookahead.terminal < machine.table.actions.terminalCount)
      (action : machine.action (topState c.stack) c.lookahead.terminal = .error)
      (deferred : c.deferred = none) (recovering : c.recovering = false)
      (refused : (if machine.options.errorRecovery && c.errors < machine.options.maxErrors then
        machine.unwind? c.stack else none) = none) :
      Stop machine source c (.error (.syntaxError (machine.syntaxError (topState c.stack) c.lookahead)))

/-! ## Values of steps -/

theorem value_advance : (advance source c).value = match (source c.read).value with
    | .error e => .finished (.error (.lexer e))
    | .ok token => .running { c with lookahead := token, read := c.read + 1 } := by
  have bind : (advance source c).value = Logged.value (match (source c.read).value with
      | .error e => (⟨.finished (.error (.lexer e)), []⟩ : Logged (Progress α))
      | .ok token => ⟨.running { c with lookahead := token, read := c.read + 1 }, []⟩) := rfl
  rw [bind]
  split <;> rfl

theorem running_of_advance (h : (advance source c).value = .running c') : ∃ token,
    (source c.read).value = .ok token ∧ c' = { c with lookahead := token, read := c.read + 1 } := by
  rw [value_advance] at h
  split at h
  · cases h
  · rename_i token ht
    exact ⟨token, ht, (Progress.running.inj h).symm⟩

theorem finished_of_advance {result : Except ParseError α} (h : (advance source c).value = .finished result) :
    ∃ e, (source c.read).value = .error e ∧ result = .error (.lexer e) := by
  rw [value_advance] at h
  split at h
  · rename_i e he
    exact ⟨e, he, (Progress.finished.inj h).symm⟩
  · cases h

theorem value_shift (next : Nat) : (machine.shift source c next).value =
    match c.deferred with
    | some token => .running { c with
        stack := ⟨next, c.lookahead.value⟩ :: c.stack
        lookahead := token
        deferred := none
        recovering := true }
    | none =>
      (advance source { c with stack := ⟨next, c.lookahead.value⟩ :: c.stack, recovering := false }).value := by
  change Logged.value (match c.deferred with
    | some token => return .running { c with
        stack := ⟨next, c.lookahead.value⟩ :: c.stack
        lookahead := token
        deferred := none
        recovering := true }
    | none => advance source { c with stack := ⟨next, c.lookahead.value⟩ :: c.stack, recovering := false }) = _
  split <;> rfl

/-- What is unwound is taken off the top. -/
theorem suffix_of_unwind? {stack kept : List (Entry α)} (h : machine.unwind? stack = some kept) :
    kept <:+ stack := by
  induction stack with
  | nil =>
    rw [unwind?] at h
    split at h
    · cases h
    · cases h
      exact List.suffix_refl _
  | cons entry stack ih =>
    rw [unwind?] at h
    split at h
    · exact (ih h).trans (List.suffix_cons entry stack)
    · cases h
      exact List.suffix_refl _

variable [Inhabited α]

theorem running_of_shift {next : Nat}
    (action : machine.action (topState c.stack) c.lookahead.terminal = .shift next)
    (h : (machine.shift source c next).value = .running c') : machine.Step source c c' := by
  rw [value_shift] at h
  split at h
  · rename_i token deferred
    cases h
    exact .shiftError action deferred
  · rename_i deferred
    obtain ⟨token, read, rfl⟩ := running_of_advance h
    exact .shift action deferred read

theorem running_of_reduce {number : Nat}
    (action : machine.action (topState c.stack) c.lookahead.terminal = .reduce number)
    (h : (machine.reduce c number).value = .running c') : machine.Step source c c' := by
  rw [reduce] at h
  split at h
  · rename_i reduction semantic hreduction haction
    simp only at h
    split at h
    · cases h
    · rename_i next goto
      cases h
      exact .reduce action hreduction haction goto
  · cases h

theorem running_of_discard (action : machine.action (topState c.stack) c.lookahead.terminal = .error)
    (deferred : c.deferred = none) (recovering : c.recovering = true)
    (h : (machine.discard source c).value = .running c') : machine.Step source c c' := by
  rw [discard] at h
  split at h
  · cases h
  · have h : (advance source c).value = .running c' := h
    obtain ⟨token, read, rfl⟩ := running_of_advance h
    exact .discard action deferred recovering read

theorem running_of_recover (action : machine.action (topState c.stack) c.lookahead.terminal = .error)
    (deferred : c.deferred = none) (recovering : c.recovering = false)
    (h : (machine.recover c).value = .running c') : machine.Step source c c' := by
  rw [recover] at h
  simp only at h
  split at h
  · cases h
  · rename_i stack unwound
    cases h
    refine .recover action deferred recovering ?_
    split at unwound
    · exact unwound
    · cases unwound

/-- **A step goes on in one of five ways.** -/
theorem step_of_running (h : (machine.step source c).value = .running c') : machine.Step source c c' := by
  rw [step] at h
  split at h
  · cases h
  split at h
  · rename_i next action
    exact running_of_shift action h
  · rename_i number action
    exact running_of_reduce action h
  · cases h
  · rename_i action
    rw [reject] at h
    split at h
    · cases h
    · rename_i deferred
      have deferred : c.deferred = none := by simpa using deferred
      split at h
      · rename_i recovering
        exact running_of_discard action deferred recovering h
      · rename_i recovering
        exact running_of_recover action deferred (by simpa using recovering) h

section Stops
variable {result : Except ParseError α}

theorem stop_of_shift {next : Nat} (h : (machine.shift source c next).value = .finished result) :
    machine.Stop source c result := by
  rw [value_shift] at h
  split at h
  · cases h
  · rename_i deferred
    obtain ⟨e, read, rfl⟩ := finished_of_advance h
    exact .lexer deferred read

theorem stop_of_reduce {number : Nat} (reduce : machine.action (topState c.stack) c.lookahead.terminal = .reduce number)
    (h : (machine.reduce c number).value = .finished result) : machine.Stop source c result := by
  rw [Machine.reduce] at h
  split at h
  · rename_i hreduction haction
    simp only at h
    split at h
    · rename_i goto
      cases h
      refine .missingGoto reduce fun reduction action hreduction' haction' => ?_
      cases hreduction.symm.trans hreduction'
      exact goto
    · cases h
  · rename_i incomplete
    cases h
    exact .missingGoto reduce fun reduction action hreduction haction =>
      (incomplete reduction action hreduction haction).elim

theorem stop_of_reject (known : c.lookahead.terminal < machine.table.actions.terminalCount)
    (action : machine.action (topState c.stack) c.lookahead.terminal = .error)
    (h : (machine.reject source c).value = .finished result) : machine.Stop source c result := by
  rw [reject] at h
  split at h
  · rename_i deferred
    cases h
    exact .failure known action (.inl deferred)
  · rename_i deferred
    have deferred : c.deferred = none := by simpa using deferred
    split at h
    · rename_i recovering
      rw [discard] at h
      split at h
      · rename_i atEnd
        cases h
        exact .failure known action (.inr ⟨deferred, recovering, atEnd⟩)
      · have h : (advance source c).value = .finished result := h
        obtain ⟨e, read, rfl⟩ := finished_of_advance h
        exact .lexer deferred read
    · rename_i recovering
      rw [recover] at h
      simp only at h
      split at h
      · rename_i refused
        cases h
        exact .refuse known action deferred (by simpa using recovering) refused
      · cases h

/-- **A step finishes the run in one of six ways.** -/
theorem stop_of_finished (h : (machine.step source c).value = .finished result) : machine.Stop source c result := by
  rw [step] at h
  split at h
  · rename_i unknown
    cases h
    exact .unknown unknown
  rename_i known
  split at h
  · exact stop_of_shift h
  · rename_i reduce
    exact stop_of_reduce reduce h
  · rename_i accept
    cases h
    exact .accept accept
  · rename_i action
    exact stop_of_reject (Nat.lt_of_not_le known) action h

/-- **A run succeeds only by accepting.** -/
theorem accept_of_finished {v : α} (h : (machine.step source c).value = .finished (.ok v)) :
    machine.action (topState c.stack) c.lookahead.terminal = .accept ∧
      v = (c.stack.head?.map (·.value)).getD default := by
  cases stop_of_finished h with
  | accept action => exact ⟨action, rfl⟩

end Stops

/-! ## Runs -/

/-- The configurations that a run comes through. -/
inductive Reaches (machine : Machine α) (source : TokenStream α) : Configuration α → Prop
  | start {token : Token α} (read : (source 0).value = .ok token) :
      Reaches machine source ⟨[], token, none, none, false, 0, 1⟩
  | step {c c' : Configuration α} (h : Reaches machine source c)
      (running : (machine.step source c).value = .running c') : Reaches machine source c'

theorem exists_finish_of_run {limit : Nat} {result : Except ParseError α} {events : Array Event}
    (reaches : machine.Reaches source c) (h : (machine.run source limit c events).1 = some result) :
    ∃ last, machine.Reaches source last ∧ (machine.step source last).value = .finished result := by
  induction limit generalizing c events with
  | zero => cases h
  | succ limit ih =>
    rw [run] at h
    split at h
    · rename_i finished
      cases h
      exact ⟨c, reaches, finished⟩
    · rename_i running
      exact ih (.step reaches running) h

theorem value_parse {limit : Nat} : (machine.parse source limit).value = match (source 0).value with
    | .error e => some (.error (.lexer e))
    | .ok token => (machine.run source limit ⟨[], token, none, none, false, 0, 1⟩ #[]).1 := by
  change Logged.value (match (source 0).value with
    | .error e => _
    | .ok token => _) = _
  split <;> rfl

/-- A parse with a result has reached its end, unless there was no first token. -/
theorem exists_finish_of_value_parse {limit : Nat} {result : Except ParseError α}
    (h : (machine.parse source limit).value = some result) (other : ∀ e, result ≠ .error (.lexer e)) :
    ∃ last, machine.Reaches source last ∧ (machine.step source last).value = .finished result := by
  rw [value_parse] at h
  split at h
  · exact absurd (Option.some.inj h).symm (other _)
  · rename_i token read
    exact exists_finish_of_run (.start read) h

/-- **A parse that succeeds has reached its end.** -/
theorem exists_finish_of_parse {limit : Nat} {v : α}
    (h : (machine.parse source limit).value = some (.ok v)) :
    ∃ last, machine.Reaches source last ∧ (machine.step source last).value = .finished (.ok v) :=
  exists_finish_of_value_parse h nofun

/-! ## Counted runs -/

/-- Whether a number of steps leads from one configuration to another. -/
inductive Runs (machine : Machine α) (source : TokenStream α) :
    Nat → Configuration α → Configuration α → Prop
  | refl (c : Configuration α) : Runs machine source 0 c c
  | step {n : Nat} {c c' last : Configuration α} (running : (machine.step source c).value = .running c')
      (h : Runs machine source n c' last) : Runs machine source (n + 1) c last

variable {last : Configuration α} {m n : Nat}

theorem Runs.trans (h : machine.Runs source m c c') (h' : machine.Runs source n c' last) :
    machine.Runs source (m + n) c last := by
  induction h with
  | refl c => rwa [Nat.zero_add]
  | step running _ ih =>
    rw [Nat.add_right_comm]
    exact .step running (ih h')

theorem Runs.single (running : (machine.step source c).value = .running c') : machine.Runs source 1 c c' :=
  .step running (.refl c')

/-- A run that has been counted is one that is made. -/
theorem Runs.finish {result : Except ParseError α} (h : machine.Runs source n c last)
    (finish : (machine.step source last).value = .finished result) {limit : Nat} (enough : n < limit)
    (events : Array Event) : (machine.run source limit c events).1 = some result := by
  induction h generalizing limit events with
  | refl c =>
    obtain ⟨limit, rfl⟩ := Nat.exists_eq_add_of_lt enough
    rw [Nat.zero_add, run]
    simp only [finish]
  | step running _ ih =>
    cases limit with
    | zero => cases enough
    | succ limit =>
      rw [run]
      simp only [running]
      exact ih finish (Nat.lt_of_succ_lt_succ enough) _

/-- Whatever a run reaches lies on its way to the end. -/
theorem Reaches.runs {token : Token α} (read : (source 0).value = .ok token)
    (h : machine.Runs source n ⟨[], token, none, none, false, 0, 1⟩ last) {result : Except ParseError α}
    (finish : (machine.step source last).value = .finished result) (reaches : machine.Reaches source c) :
    ∃ m, machine.Runs source m c last := by
  induction reaches with
  | start read' =>
    cases read.symm.trans read'
    exact ⟨n, h⟩
  | step _ running ih =>
    obtain ⟨m, h⟩ := ih
    cases h with
    | refl =>
      rw [running] at finish
      cases finish
    | step running' h =>
      cases running.symm.trans running'
      exact ⟨_, h⟩

/-- The number of recoveries only grows. -/
theorem Runs.errors_le (h : machine.Runs source n c last) : c.errors ≤ last.errors := by
  induction h with
  | refl c => exact Nat.le_refl _
  | step running _ ih =>
    refine Nat.le_trans ?_ ih
    cases step_of_running running with
    | shift | shiftError | reduce | discard => exact Nat.le_refl _
    | recover => exact Nat.le_succ _

end Machine
end TableParsing
