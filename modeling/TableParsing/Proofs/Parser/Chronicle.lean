import TableParsing.Proofs.Parser.Recovery
import TableParsing.Proofs.Parser.Termination

/-! # What a run has done

The chronicle of a run says of each step what it was: it took a token, or the error token, reduced a production, left
out a token, or began a recovery.  It is kept beside the run and the machine does not see it, so what the machine
counts and remembers can be held against it:

* the tokens that were taken or left out are the tokens of the source, each of them once and in their order,
* there were as many recoveries as there are errors, and not more than are allowed,
* between two recoveries a token was taken,
* while the error token stands in front of a rejected token, nothing but the end of the parse with the error of that
  recovery can come of its being rejected.

The third follows from an invariant: behind a recovery the error token is yet to be taken, or tokens are being left
out, or a token has been taken since (`Chronicled.took`). -/

namespace TableParsing

variable {α : Type}

/-- What a step does. -/
inductive Deed (α : Type) where
  | take (token : Token α)
  | takeError
  | reduce
  | leaveOut (token : Token α)
  | recover

namespace Deed

/-- The token of the source that is done with. -/
def token? : Deed α → Option (Token α)
  | .take token | .leaveOut token => some token
  | .takeError | .reduce | .recover => none

/-- Whether a recovery begins. -/
def recovers : Deed α → Bool
  | .recover => true
  | .take _ | .takeError | .reduce | .leaveOut _ => false

end Deed

/-- What the step of a configuration does, if it goes on. -/
def Machine.deed (machine : Machine α) (c : Configuration α) : Deed α :=
  match machine.action (topState c.stack) c.lookahead.terminal with
  | .shift _ => if c.deferred.isSome then .takeError else .take c.lookahead
  | .reduce _ | .accept => .reduce
  | .error => if c.recovering then .leaveOut c.lookahead else .recover

namespace Machine
variable {machine : Machine α} {c : Configuration α} {next number : Nat}

theorem deed_take (action : machine.action (topState c.stack) c.lookahead.terminal = .shift next)
    (deferred : c.deferred = none) : machine.deed c = .take c.lookahead := by simp [deed, action, deferred]

theorem deed_takeError {rejected : Token α}
    (action : machine.action (topState c.stack) c.lookahead.terminal = .shift next)
    (deferred : c.deferred = some rejected) : machine.deed c = .takeError := by simp [deed, action, deferred]

theorem deed_reduce (action : machine.action (topState c.stack) c.lookahead.terminal = .reduce number) :
    machine.deed c = .reduce := by simp [deed, action]

theorem deed_leaveOut (action : machine.action (topState c.stack) c.lookahead.terminal = .error)
    (recovering : c.recovering = true) : machine.deed c = .leaveOut c.lookahead := by simp [deed, action, recovering]

theorem deed_recover (action : machine.action (topState c.stack) c.lookahead.terminal = .error)
    (recovering : c.recovering = false) : machine.deed c = .recover := by simp [deed, action, recovering]

end Machine

/-! ## Chronicles -/

/-- The tokens of the source that are done with. -/
def tokensOf (deeds : List (Deed α)) : List (Token α) := deeds.filterMap Deed.token?

/-- The number of recoveries. -/
def recoveriesOf (deeds : List (Deed α)) : Nat := deeds.countP Deed.recovers

/-- Whether a token was taken behind every recovery. -/
def TakesBehind (deeds : List (Deed α)) : Prop :=
  ∀ front back, deeds = front ++ .recover :: back → ∃ token, .take token ∈ back

/-- Whether a token was taken between any two recoveries. -/
def TakesBetween (deeds : List (Deed α)) : Prop :=
  ∀ front middle back, deeds = front ++ .recover :: (middle ++ .recover :: back) → ∃ token, .take token ∈ middle

section Snoc
variable {deeds : List (Deed α)} {deed : Deed α}

theorem tokensOf_snoc : tokensOf (deeds ++ [deed]) = tokensOf deeds ++ deed.token?.toList := by
  rw [tokensOf, List.filterMap_append, List.filterMap_cons, tokensOf]
  cases deed.token? <;> rfl

theorem recoveriesOf_snoc : recoveriesOf (deeds ++ [deed]) = recoveriesOf deeds + deed.recovers.toNat := by
  rw [recoveriesOf, List.countP_append, List.countP_singleton, recoveriesOf]
  cases deed.recovers <;> rfl

/-- Where a list is split, its last entry is the one that is named or stands at the end of the rest. -/
theorem concat_eq_append_cons {β : Type} {front middle xs : List β} {x y : β} (h : xs ++ [y] = front ++ x :: middle) :
    (xs = front ∧ y = x ∧ middle = []) ∨ ∃ rest, xs = front ++ x :: rest ∧ middle = rest ++ [y] := by
  rcases List.eq_nil_or_concat middle with rfl | ⟨rest, last, rfl⟩
  · obtain ⟨rfl, same⟩ := List.append_inj' h rfl
    exact .inl ⟨rfl, List.singleton_inj.mp same, rfl⟩
  · rw [List.concat_eq_append, ← List.cons_append, ← List.append_assoc] at h
    obtain ⟨rfl, same⟩ := List.append_inj' h rfl
    rw [List.concat_eq_append, List.singleton_inj.mp same]
    exact .inr ⟨rest, rfl, rfl⟩

/-- What is no recovery does not undo that a token was taken. -/
theorem TakesBehind.snoc (h : TakesBehind deeds) (other : deed.recovers = false) :
    TakesBehind (deeds ++ [deed]) := by
  intro front back split
  rcases concat_eq_append_cons split with ⟨-, rfl, -⟩ | ⟨rest, rfl, rfl⟩
  · cases other
  · obtain ⟨token, taken⟩ := h front rest rfl
    exact ⟨token, List.mem_append_left _ taken⟩

theorem takesBehind_take (token : Token α) : TakesBehind (deeds ++ [.take token]) := by
  intro front back split
  rcases concat_eq_append_cons split with ⟨-, same, -⟩ | ⟨rest, -, rfl⟩
  · cases same
  · exact ⟨token, List.mem_append_right _ List.mem_cons_self⟩

theorem TakesBetween.snoc (h : TakesBetween deeds) (other : deed.recovers = false) :
    TakesBetween (deeds ++ [deed]) := by
  intro front middle back split
  rw [← List.cons_append, ← List.append_assoc] at split
  rcases concat_eq_append_cons split with ⟨-, rfl, -⟩ | ⟨rest, rfl, -⟩
  · cases other
  · exact h front middle rest (by rw [List.append_assoc, List.cons_append])

/-- Behind a token that was taken there may be another recovery. -/
theorem TakesBetween.recover (h : TakesBetween deeds) (behind : TakesBehind deeds) :
    TakesBetween (deeds ++ [.recover]) := by
  intro front middle back split
  rw [← List.cons_append, ← List.append_assoc] at split
  rcases concat_eq_append_cons split with ⟨rfl, -, -⟩ | ⟨rest, rfl, -⟩
  · exact behind front middle rfl
  · exact h front middle rest (by rw [List.append_assoc, List.cons_append])

end Snoc

/-! ## Runs and their records -/

namespace Machine
variable [Inhabited α]

/-- The configurations that a run comes through, each with a record that is kept of the run beside it. -/
inductive Records (machine : Machine α) (source : TokenStream α) {Record : Type} (first : Record)
    (next : Record → Configuration α → Configuration α → Record) : Record → Configuration α → Prop
  | start {token : Token α} (read : (source 0).value = .ok token) :
      Records machine source first next first ⟨[], token, none, none, false, 0, 1⟩
  | step {record : Record} {c c' : Configuration α} (h : Records machine source first next record c)
      (running : (machine.step source c).value = .running c') : Records machine source first next (next record c c') c'

section Records
variable {machine : Machine α} {source : TokenStream α} {c c' : Configuration α} {Record : Type} {first record : Record}
  {next : Record → Configuration α → Configuration α → Record}

theorem Records.reaches (h : machine.Records source first next record c) : machine.Reaches source c := by
  induction h with
  | start read => exact .start read
  | step _ running ih => exact .step ih running

variable (first next) in
/-- Keeping a record does not hold up the run. -/
theorem Reaches.exists_records (h : machine.Reaches source c) :
    ∃ record, machine.Records source first next record c := by
  induction h with
  | start read => exact ⟨first, .start read⟩
  | step _ running ih =>
    obtain ⟨record, h⟩ := ih
    exact ⟨_, h.step running⟩

end Records

/-- The configurations that a run comes through, each with what the run has done until then. -/
def Chronicle (machine : Machine α) (source : TokenStream α) : List (Deed α) → Configuration α → Prop :=
  machine.Records source [] fun deeds c _ => deeds ++ [machine.deed c]

variable {machine : Machine α} {source : TokenStream α} {c c' : Configuration α}

/-- A recovery begins only while recoveries are allowed. -/
theorem errors_lt_of_running (running : (machine.step source c).value = .running c') (more : c.errors < c'.errors) :
    c.errors < machine.options.maxErrors := by
  cases step_of_running running with
  | shift | shiftError | reduce | discard => exact absurd more (Nat.lt_irrefl _)
  | recover action deferred recovering =>
    rw [step_eq (known_of_running running), action] at running
    simp only [reject, deferred, recovering, recover, Option.isSome_none, Bool.false_eq_true, if_false] at running
    split at running
    · cases running
    · rename_i stack unwound
      by_contra spent
      rw [if_neg (by simp [spent])] at unwound
      cases unwound

/-- Behind the first recovery there is always an error that started the last one. -/
theorem Reaches.exists_pending (h : machine.Reaches source c) (some : c.errors ≠ 0) : ∃ e, c.pending = .some e := by
  induction h with
  | start => exact absurd rfl some
  | step _ running ih =>
    cases step_of_running running with
    | shift | shiftError | reduce | discard => exact ih some
    | recover => exact ⟨_, rfl⟩

end Machine

/-! ## The invariant -/

/-- What the machine counts and remembers is what the chronicle says. -/
structure Chronicled (machine : Machine α) (source : TokenStream α) (deeds : List (Deed α)) (c : Configuration α) :
    Prop where
  read_eq : c.read = (tokensOf deeds).length + 1
  /-- The tokens that are done with are those of the source, and the next one is yet to be taken. -/
  begins : source.Begins (tokensOf deeds ++ [c.upcoming])
  errors_eq : c.errors = recoveriesOf deeds
  errors_le : c.errors ≤ machine.options.maxErrors
  /-- A run that is not in a recovery has taken a token since the last one. -/
  took : c.deferred = none → c.recovering = false → TakesBehind deeds
  between : TakesBetween deeds

namespace Chronicled
variable {machine : Machine α} {source : TokenStream α} {c : Configuration α} {deeds : List (Deed α)}

section Deeds
variable {c' : Configuration α} {deed : Deed α} {token : Token α} (h : Chronicled machine source deeds c)
  (errors_eq : c'.errors = recoveriesOf (deeds ++ [deed])) (errors_le : c'.errors ≤ machine.options.maxErrors)
  (took : c'.deferred = none → c'.recovering = false → TakesBehind (deeds ++ [deed]))
  (between : TakesBetween (deeds ++ [deed]))
include h errors_eq errors_le took between

/-- What is done with no token leaves the next one to be taken. -/
theorem stays (idle : deed.token? = none) (read : c'.read = c.read) (upcoming : c'.upcoming = c.upcoming) :
    Chronicled machine source (deeds ++ [deed]) c' := by
  have tokens : tokensOf (deeds ++ [deed]) = tokensOf deeds := by
    rw [tokensOf_snoc, idle, Option.toList_none, List.append_nil]
  exact ⟨by rw [tokens, read, h.read_eq], by rw [tokens, upcoming]; exact h.begins, errors_eq, errors_le, took, between⟩

/-- What is done with the next token brings up the one behind it. -/
theorem moves (deferred : c.deferred = none) (done : deed.token? = some c.lookahead) (read : c'.read = c.read + 1)
    (upcoming : c'.upcoming = token) (next : (source c.read).value = .ok token) :
    Chronicled machine source (deeds ++ [deed]) c' := by
  have tokens : tokensOf (deeds ++ [deed]) = tokensOf deeds ++ [c.lookahead] := by
    rw [tokensOf_snoc, done, Option.toList_some]
  have length : (tokensOf (deeds ++ [deed])).length = c.read := by
    rw [tokens, List.length_append, List.length_singleton, ← h.read_eq]
  have begins := h.begins
  rw [Configuration.upcoming, deferred, Option.getD_none, ← tokens] at begins
  refine ⟨by rw [length, read], ?_, errors_eq, errors_le, took, between⟩
  rw [upcoming]
  exact begins.snoc (length.symm ▸ next)

end Deeds

theorem start {token : Token α} (read : (source 0).value = .ok token) :
    Chronicled machine source [] ⟨[], token, none, none, false, 0, 1⟩ where
  read_eq := rfl
  begins i other there := by
    cases i with
    | zero => exact Option.some.inj there ▸ read
    | succ i => cases there
  errors_eq := rfl
  errors_le := Nat.zero_le _
  took _ _ := by simp [TakesBehind]
  between := by simp [TakesBetween]

/-- **Every step keeps the invariant.** -/
theorem step [Inhabited α] {c' : Configuration α} (h : Chronicled machine source deeds c)
    (running : (machine.step source c).value = .running c') :
    Chronicled machine source (deeds ++ [machine.deed c]) c' := by
  have lt := Machine.errors_lt_of_running running
  have errors_eq {deed : Deed α} (other : deed.recovers = false) : c.errors = recoveriesOf (deeds ++ [deed]) := by
    rw [recoveriesOf_snoc, other, h.errors_eq]
    rfl
  cases Machine.step_of_running running with
  | shift action deferred next =>
    rw [Machine.deed_take action deferred]
    refine h.moves (errors_eq rfl) h.errors_le (fun _ _ => takesBehind_take _) (h.between.snoc rfl) deferred rfl rfl
      ?_ next
    rw [Configuration.upcoming, deferred, Option.getD_none]
  | shiftError action deferred =>
    rw [Machine.deed_takeError action deferred]
    refine h.stays (errors_eq rfl) h.errors_le (by simp) (h.between.snoc rfl) rfl rfl ?_
    rw [Configuration.upcoming, Configuration.upcoming, deferred, Option.getD_none, Option.getD_some]
  | reduce action =>
    rw [Machine.deed_reduce action]
    exact h.stays (errors_eq rfl) h.errors_le (fun deferred recovering => (h.took deferred recovering).snoc rfl)
      (h.between.snoc rfl) rfl rfl rfl
  | discard action deferred recovering next =>
    rw [Machine.deed_leaveOut action recovering]
    refine h.moves (errors_eq rfl) h.errors_le (fun _ rest => absurd recovering (rest ▸ Bool.false_ne_true))
      (h.between.snoc rfl) deferred rfl rfl ?_ next
    rw [Configuration.upcoming, deferred, Option.getD_none]
  | recover action deferred recovering =>
    rw [Machine.deed_recover action recovering]
    refine h.stays ?_ (lt (Nat.lt_succ_self _)) (by simp) (h.between.recover (h.took deferred recovering)) rfl rfl ?_
    · rw [recoveriesOf_snoc, ← h.errors_eq]
      rfl
    · rw [Configuration.upcoming, Configuration.upcoming, deferred, Option.getD_none, Option.getD_some]

end Chronicled

variable [Inhabited α]

theorem Machine.Chronicle.chronicled {machine : Machine α} {source : TokenStream α} {c : Configuration α}
    {deeds : List (Deed α)} (h : machine.Chronicle source deeds c) : Chronicled machine source deeds c := by
  induction h with
  | start read => exact .start read
  | step _ running ih => exact ih.step running

/-! ## The error token in front of a rejected token -/

/-- Whether the error token stands in front of a rejected token, and nothing can come of it but that it is taken, behind
reductions, or that the parse ends with the error of its recovery. -/
structure Machine.StandsIn (machine : Machine α) (source : TokenStream α) (c : Configuration α) (e : SyntaxError) :
    Prop where
  pending : c.pending = some e
  lookahead : c.lookahead.IsError
  running : ∀ c', (machine.step source c).value = .running c' →
    (machine.deed c = .reduce ∨ machine.deed c = .takeError) ∧ c'.errors = c.errors ∧ c'.pending = some e
  finished : ∀ result, (machine.step source c).value = .finished result → result = .error (.syntaxError e)

theorem Machine.Reaches.standsIn {grammar : Grammar α} {states : List Collection.State} {machine : Machine α}
    {source : TokenStream α} {c : Configuration α} (wf : grammar.cfg.WellFormed)
    (automaton : grammar.cfg.IsAutomaton states) (drives : machine.Drives grammar states)
    (heeds : machine.Heeds grammar states) (reaches : machine.Reaches source c) {rejected : Token α}
    (deferred : c.deferred = some rejected) : ∃ e, machine.StandsIn source c e := by
  obtain ⟨tokens, leaves, explains⟩ := Explains.of_reaches wf automaton drives reaches
  have lookahead := explains.isError (by rw [deferred]; rfl)
  obtain ⟨e, pending⟩ := reaches.exists_pending fun none => by
    rw [(explains.faithful none).1] at deferred
    cases deferred
  have terminal := lookahead.terminal_eq
  have known : c.lookahead.terminal < machine.table.actions.terminalCount := by
    rw [terminal, drives.terminalCount_eq]
    exact wf.errorTerminal_lt
  refine ⟨e, pending, lookahead, fun c' running => ?_, fun result finished => ?_⟩
  · cases step_of_running running with
    | shift _ free | discard _ free | recover _ free => cases free.symm.trans deferred
    | shiftError action => exact ⟨.inr (deed_takeError action deferred), rfl, pending⟩
    | reduce action => exact ⟨.inl (deed_reduce action), rfl, pending⟩
  · cases stop_of_finished finished with
    | unknown unknown => exact absurd known (Nat.not_lt.mpr unknown)
    | lexer free | refuse _ _ free => cases free.symm.trans deferred
    | missingGoto action =>
      obtain ⟨word, along, -⟩ := explains.supported.exists_word
      obtain ⟨stack, -, running, -⟩ :=
        heeds.exists_reduction source wf automaton drives explains.supported along known action
      cases finished.symm.trans running
    | accept action =>
      obtain ⟨atEnd, -⟩ := drives.accept _ _ action
      exact absurd (terminal.symm.trans atEnd) error_ne_end
    | failure => rw [pending, Option.getD_some]

/-! ## A run with two recoveries -/

omit [Inhabited α] in
/-- A terminal that is viable behind the word of a stack is shifted. -/
theorem Machine.Realizes.exists_target {grammar : Grammar α} {states : List Collection.State} {machine : Machine α}
    {stack : List (Entry α)} {word : List Symbol} {core : Core} {t : Nat} (realizes : machine.Realizes grammar states)
    (along : Along states stack word) (viable : grammar.cfg.Viable word core)
    (hnext : grammar.cfg.nextSymbol? core = some (.terminal t)) : ∃ target,
      machine.action (topState stack) t = .shift target ∧
      ∀ value, Along states (⟨target, value⟩ :: stack) (.terminal t :: word) := by
  obtain ⟨wf, automaton, -, fully⟩ := realizes
  obtain ⟨state, target, top, -, leads⟩ := along.exists_lookup automaton viable hnext
  exact ⟨target, fully.shift _ _ _ state top leads (automaton.lt_of_lookup wf top leads),
    fun _ => along.push top leads⟩

/-- The grammar of an error, the letter x and another error.  Its production is given an error and makes of it the name
of the token that did not fit. -/
def nested : Grammar String where
  terminals := [⟨"$end", .reserved, none⟩, ⟨"error", .reserved, none⟩, ⟨"x", .literal "x", none⟩]
  nonTerminals := ["s", "t"]
  productions := [⟨0, [.terminal 1, .terminal 2, .nonTerminal 1], .ofError fun e _ => e.found, none⟩,
    ⟨1, [.terminal 1], .ofValues fun _ => "", none⟩]
  start := 0
  ignored := []
  lexerOptions := {}

namespace nested

/-- The draft of the grammar. -/
def draft : GrammarDraft String :=
  let draft := ((({} : GrammarDraft String).nonTerminal "s").1.nonTerminal "t").1
  let draft := (draft.production 0 [.terminal 1, .literal "x", .nonTerminal 1] (.ofError fun e _ => e.found)).1
  let draft := (draft.production 1 [.terminal 1] (.ofValues fun _ => "")).1
  { draft with start := some 0 }

theorem declared : nested.Declared :=
  ⟨draft, .start (.production (.production (.nonTerminal (.nonTerminal .empty _) _) _ _ _) _ _ _) _, rfl⟩

theorem hasNoPrecedence : nested.HasNoPrecedence := by decide

/-- The grammar without names and actions. -/
def cfg : Cfg where
  terminalCount := 3
  nonTerminalCount := 2
  rules := #[⟨0, [.terminal 1, .terminal 2, .nonTerminal 1]⟩, ⟨1, [.terminal 1]⟩]
  start := 0

/-- What the words of the grammar lead to. -/
def chart : Chart where
  rows := [[(⟨2, 0⟩, [0]), (⟨0, 0⟩, [0])], [(⟨2, 1⟩, [0])], [(⟨0, 1⟩, [0])], [(⟨0, 2⟩, [0]), (⟨1, 0⟩, [0])],
    [(⟨0, 3⟩, [0])], [(⟨1, 1⟩, [0])]]
  moves := [((0, .nonTerminal 0), 1), ((0, .terminal 1), 2), ((2, .terminal 2), 3), ((3, .nonTerminal 1), 4),
    ((3, .terminal 1), 5)]

theorem bounds_chart : chart.bounds cfg := by decide

theorem wellFormed : cfg.WellFormed :=
  have declared : nested.Declared := declared
  declared.wellFormed

theorem isLiteral : nested.IsLiteral := ⟨rfl, by decide⟩

theorem exists_toParser (options : ParserOptions) : ∃ parser, (nested.toParser options).run.value = .ok parser := by
  have settled : ∀ place < chart.rows.length, ∀ t < 3, chart.settled nested place t := by decide
  exact isLiteral.exists_toParser (Chart.exists_table nested bounds_chart wellFormed settled options.mergeCores)

/-- The letter, which is the whole text. -/
def letter : Token String := ⟨2, "x", ⟨0, 1⟩, "x"⟩

/-- The end of the input. -/
def stop : Token String := ⟨endTerminal, "", ⟨0, 0⟩, default⟩

def source : TokenStream String := .ofList [.ok letter]

/-! ### Its configurations -/

section Configurations
variable (machine : Machine String) (i j k : Nat)

/-- The letter does not fit, as an error is to come first. -/
def first : Configuration String := .clean [] letter 1

/-- The error token was taken, and the letter comes up again. -/
def errorTaken : Configuration String := { machine.recovery first [] with
  stack := [⟨i, default⟩]
  lookahead := letter
  deferred := none
  recovering := true }

/-- The letter was taken.  The end of the input does not fit, as another error is to come first. -/
def letterTaken : Configuration String := { errorTaken machine i with
  stack := [⟨j, "x"⟩, ⟨i, default⟩]
  lookahead := stop
  recovering := false
  read := 2 }

/-- The other recovery has begun. -/
def otherBegun : Configuration String := machine.recovery (letterTaken machine i j) (letterTaken machine i j).stack

/-- The other error token was taken, and the end of the input comes up again. -/
def otherTaken : Configuration String := { otherBegun machine i j with
  stack := [⟨k, default⟩, ⟨j, "x"⟩, ⟨i, default⟩]
  lookahead := stop
  deferred := none
  recovering := true }

/-- What the machine does in these configurations. -/
structure Turns : Prop where
  options_eq : machine.options = {}
  terminalCount_eq : machine.table.actions.terminalCount = 3
  rejects_letter : machine.action 0 2 = .error
  takes_error : machine.action 0 errorTerminal = .shift i
  takes_letter : machine.action i 2 = .shift j
  rejects_stop : machine.action j endTerminal = .error
  takes_other : machine.action j errorTerminal = .shift k

end Configurations

namespace Turns
variable {machine : Machine String} {i j k : Nat} (turns : Turns machine i j k)
include turns

theorem known_error : errorTerminal < machine.table.actions.terminalCount :=
  turns.terminalCount_eq ▸ (by decide : errorTerminal < 3)

theorem detects_first : machine.Detects first :=
  ⟨turns.terminalCount_eq ▸ (by decide : 2 < 3), turns.rejects_letter, rfl, rfl⟩

theorem detects_letterTaken : machine.Detects (letterTaken machine i j) :=
  ⟨turns.terminalCount_eq ▸ (by decide : 0 < 3), turns.rejects_stop, rfl, rfl⟩

theorem running_first : (machine.step source first).value = .running (machine.recovery first []) :=
  turns.detects_first.running source (by rw [turns.options_eq]) (by rw [turns.options_eq]; exact (by decide : 0 < 100))
    (Machine.unwind?_of_acts fun idle => nomatch idle.symm.trans turns.takes_error)

theorem running_error : (machine.step source (machine.recovery first [])).value = .running (errorTaken machine i) :=
  Machine.running_shiftError rfl rfl turns.known_error turns.takes_error

theorem running_letter : (machine.step source (errorTaken machine i)).value = .running (letterTaken machine i j) := by
  have known : (errorTaken machine i).lookahead.terminal < machine.table.actions.terminalCount :=
    turns.terminalCount_eq ▸ (by decide : 2 < 3)
  have action : machine.action (topState (errorTaken machine i).stack) (errorTaken machine i).lookahead.terminal =
      .shift j := turns.takes_letter
  rw [Machine.step_eq known, action, Machine.value_shift]
  rfl

theorem running_letterTaken : (machine.step source (letterTaken machine i j)).value =
    .running (otherBegun machine i j) :=
  turns.detects_letterTaken.running source (by rw [turns.options_eq])
    (by rw [turns.options_eq]; exact (by decide : 1 < 100))
    (Machine.unwind?_of_acts fun idle => nomatch idle.symm.trans turns.takes_other)

theorem running_other : (machine.step source (otherBegun machine i j)).value =
    .running (otherTaken machine i j k) :=
  Machine.running_shiftError rfl rfl turns.known_error turns.takes_other

/-- What has been recorded when the other recovery has begun. -/
theorem records_otherBegun {Record : Type} (start : Record)
    (next : Record → Configuration String → Configuration String → Record) :
    machine.Records source start next (next (next (next (next start first (machine.recovery first []))
      (machine.recovery first []) (errorTaken machine i)) (errorTaken machine i) (letterTaken machine i j))
      (letterTaken machine i j) (otherBegun machine i j)) (otherBegun machine i j) :=
  ((((Machine.Records.start rfl).step turns.running_first).step turns.running_error).step turns.running_letter).step
    turns.running_letterTaken

theorem chronicle_otherBegun :
    machine.Chronicle source [.recover, .takeError, .take letter, .recover] (otherBegun machine i j) := by
  have begins : machine.deed first = .recover := Machine.deed_recover turns.rejects_letter rfl
  have takesError : machine.deed (machine.recovery first []) = .takeError :=
    Machine.deed_takeError turns.takes_error rfl
  have takes : machine.deed (errorTaken machine i) = .take letter := Machine.deed_take turns.takes_letter rfl
  have again : machine.deed (letterTaken machine i j) = .recover := Machine.deed_recover turns.rejects_stop rfl
  have records := turns.records_otherBegun [] fun deeds c _ => deeds ++ [machine.deed c]
  rw [begins, takesError, takes, again] at records
  exact records

end Turns

/-! ### Its words -/

section Words
variable {mergeCores : Bool} {machine : Machine String} {stack : List (Entry String)} {word : List Symbol} {t : Nat}

/-- A terminal that its place does not ask for does not fit. -/
theorem action_eq_error (decides : machine.Decides nested mergeCores)
    (along : Along (cfg.collection mergeCores) stack word)
    (idle : ∀ place ∈ chart.placeAfter word, ∀ e ∈ chart.demandsAt cfg place, e.1 ≠ t) :
    machine.action (topState stack) t = .error := by
  have automaton : cfg.IsAutomaton (cfg.collection mergeCores) := decides.realizes.isAutomaton
  obtain ⟨state, top, follows⟩ := along.follows automaton
  obtain ⟨place, there, describes⟩ := Chart.exists_describes_of_spells bounds_chart wellFormed top follows.spells
  exact decides.error_of_none top fun d hd => idle place there _ (Chart.mem_demandsAt wellFormed top describes hd) rfl

theorem viable_first : cfg.Viable [] ⟨0, 0⟩ := .expand .start rfl (by decide)

/-- The machine of the grammar does what is said. -/
theorem exists_turns {parser : Parser String} (compiled : (nested.toParser {}).run.value = .ok parser) : ∃ i j k,
    Turns parser.machine i j k ∧
      Along (cfg.collection true) [⟨k, default⟩, ⟨j, "x"⟩, ⟨i, default⟩] [.terminal 1, .terminal 2, .terminal 1] := by
  have decides := Grammar.decides_of_toParser declared hasNoPrecedence compiled
  obtain ⟨table, -, machine⟩ := Grammar.table_of_toParser compiled
  have viable_letter := viable_first.advance rfl
  have viable_other : cfg.Viable [.terminal 2, .terminal 1] ⟨1, 0⟩ :=
    .expand (viable_letter.advance rfl) rfl (by decide)
  obtain ⟨i, error, along⟩ := decides.realizes.exists_target .bottom viable_first rfl
  obtain ⟨j, letter, along⟩ := decides.realizes.exists_target (along default) viable_letter rfl
  obtain ⟨k, other, along'⟩ := decides.realizes.exists_target (along "x") viable_other rfl
  refine ⟨i, j, k, ⟨?_, decides.realizes.drives.terminalCount_eq, action_eq_error decides .bottom ?_, error, letter,
    action_eq_error decides (along "x") ?_, other⟩, along' default⟩
  · rw [machine]
    rfl
  · decide
  · decide

end Words

end nested

/-! ## Parsers -/

/-- **Recoveries are guarded.**  In every run of a parser a token is taken between any two recoveries, there are as many
recoveries as are counted, and not more than are allowed, the tokens of the source are taken or left out one after the
other, and none begins while the error token stands in front of a rejected token. -/
theorem recoveries_guarded {grammar : Grammar α} (declared : grammar.Declared) {options : ParserOptions}
    {parser : Parser α} (compiled : (grammar.toParser options).run.value = .ok parser) (source : TokenStream α) :
    (∀ c, parser.machine.Reaches source c → ∃ deeds, parser.machine.Chronicle source deeds c) ∧
    ∀ deeds c, parser.machine.Chronicle source deeds c →
      TakesBetween deeds ∧
      c.errors = recoveriesOf deeds ∧ c.errors ≤ options.maxErrors ∧
      source.Begins (tokensOf deeds ++ [c.upcoming]) ∧ c.read = (tokensOf deeds).length + 1 ∧
      (c.deferred.isSome → ∃ e, parser.machine.StandsIn source c e) := by
  refine ⟨fun c reaches => reaches.exists_records _ _, fun deeds c chronicle => ?_⟩
  have wf := declared.wellFormed
  have drives := Grammar.drives_of_toParser compiled wf
  have heeds := Grammar.heeds_of_toParser compiled wf
  have chronicled := chronicle.chronicled
  obtain ⟨table, -, machine⟩ := Grammar.table_of_toParser compiled
  have hoptions : parser.machine.options = options := by rw [machine]; rfl
  refine ⟨chronicled.between, chronicled.errors_eq, hoptions ▸ chronicled.errors_le, chronicled.begins,
    chronicled.read_eq, fun deferred => ?_⟩
  obtain ⟨rejected, deferred⟩ := Option.isSome_iff_exists.mp deferred
  exact chronicle.reaches.standsIn wf (Cfg.isAutomaton_collection wf options.mergeCores) drives heeds deferred

/-- In front of the letter x and behind it an error is missing, so there are two recoveries. -/
theorem recoveries_guarded_nested : ∃ parser : Parser String, (nested.toParser {}).run.value = .ok parser ∧
    ∃ c deeds, parser.machine.Chronicle nested.source deeds c ∧ recoveriesOf deeds = 2 ∧ c.errors = 2 ∧
      TakesBetween deeds ∧ c.read = 2 ∧ ∃ e, parser.machine.StandsIn nested.source c e := by
  obtain ⟨parser, compiled⟩ := nested.exists_toParser {}
  obtain ⟨i, j, k, turns, -⟩ := nested.exists_turns compiled
  have chronicle := turns.chronicle_otherBegun
  obtain ⟨between, errors, -, -, read, standsIn⟩ :=
    (recoveries_guarded nested.declared compiled nested.source).2 _ _ chronicle
  exact ⟨parser, compiled, _, _, chronicle, rfl, errors, between, read, standsIn rfl⟩

end TableParsing
