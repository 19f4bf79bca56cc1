import TableParsing.Parser.Basic
import TableParsing.Proofs.Parser.Steps

/-! # Two stacks are one

A configuration keeps each value with the state that its symbol led to, and state 0 lies below them all without being
kept.  The driver keeps the states and the values apart (`Stacks.ofEntries`).  What it does to its stacks is what the
machine does to the entries, also where it takes off as many as there are.  So a step of the driver is a step of the
machine, with the same events (`Driver.step_ofConfiguration`), both come to the same end (`Machine.drive_eq_parse`),
and every place that the driver comes to is that of a configuration (`Driver.Reaches.exists_configuration`).  None of
this asks anything of the machine. -/

namespace TableParsing

variable {α : Type}

/-- The states of a stack, the newest first, down to state 0. -/
def statesOf (stack : List (Entry α)) : List Nat := stack.map (·.state) ++ [0]

/-- The stack of states, the newest first. -/
def Configuration.states (c : Configuration α) : List Nat := statesOf c.stack

theorem head?_statesOf (stack : List (Entry α)) : (statesOf stack).head? = some (topState stack) := by
  cases stack <;> rfl

theorem length_statesOf (stack : List (Entry α)) : (statesOf stack).length = stack.length + 1 := by
  rw [statesOf, List.length_append, List.length_map, List.length_singleton]

theorem drop_statesOf {stack : List (Entry α)} {n : Nat} (h : n ≤ stack.length) :
    (statesOf stack).drop n = statesOf (stack.drop n) := by
  have bound : n ≤ (stack.map (·.state)).length := by rwa [List.length_map]
  rw [statesOf, statesOf, List.drop_append_of_le_length bound, List.map_drop]

/-- The state that is uncovered when entries are taken off. -/
theorem getElem?_statesOf {stack : List (Entry α)} {n : Nat} (h : n ≤ stack.length) :
    (statesOf stack)[n]? = some (topState (stack.drop n)) := by
  rw [← List.head?_drop, drop_statesOf h, head?_statesOf]

/-! ## The stacks -/

namespace Stacks
variable (stack : List (Entry α)) (entry : Entry α) (n : Nat)

/-- The two stacks of a list of entries. -/
def ofEntries : Stacks α where
  states := (statesOf stack).reverse.toArray
  values := (stack.map (·.value)).reverse.toArray

theorem size_values_ofEntries : (ofEntries stack).values.size = stack.length := by
  rw [ofEntries, List.size_toArray, List.length_reverse, List.length_map]

theorem size_states_ofEntries : (ofEntries stack).states.size = stack.length + 1 := by
  rw [ofEntries, List.size_toArray, List.length_reverse, length_statesOf]

theorem reverse_states_ofEntries : (ofEntries stack).states.toList.reverse = statesOf stack :=
  List.reverse_reverse _

/-- The state that is uncovered when entries are taken off. -/
theorem getElem?_states_ofEntries {n : Nat} (h : n ≤ stack.length) :
    (ofEntries stack).states[(ofEntries stack).states.size - 1 - n]? = some (topState (stack.drop n)) := by
  have bound : n < (ofEntries stack).states.toList.length := by
    rw [Array.length_toList, size_states_ofEntries]
    exact Nat.lt_succ_of_le h
  rw [← getElem?_statesOf h, ← reverse_states_ofEntries, List.getElem?_reverse bound, Array.getElem?_toList,
    Array.length_toList]

theorem back?_ofEntries : (ofEntries stack).states.back? = some (topState stack) := by
  rw [ofEntries, List.back?_toArray, List.getLast?_reverse, head?_statesOf]

theorem top_ofEntries : (ofEntries stack).top = topState stack := by
  rw [top, back?_ofEntries, Option.getD_some]

theorem back?_values_ofEntries : (ofEntries stack).values.back? = stack.head?.map (·.value) := by
  rw [ofEntries, List.back?_toArray, List.getLast?_reverse, List.head?_map]

theorem push_ofEntries : (⟨(ofEntries stack).states.push entry.state, (ofEntries stack).values.push entry.value⟩ :
    Stacks α) = ofEntries (entry :: stack) := by
  simp [ofEntries, statesOf]

theorem pop_ofEntries : (ofEntries (entry :: stack)).pop = ofEntries stack := by
  rw [← push_ofEntries, pop, Array.pop_push, Array.pop_push]

/-- Where there are less values than are asked for, all are given. -/
theorem arguments_ofEntries :
    (ofEntries stack).arguments n = ((stack.take n).map (·.value)).reverse := by
  have asked : stack.length - (stack.length - n) = min n stack.length := by omega
  have all : (stack.map (·.value)).reverse.extract (stack.length - n) stack.length =
      (stack.map (·.value)).reverse.drop (stack.length - n) := by
    have length : ((stack.map (·.value)).reverse.drop (stack.length - n)).length =
        stack.length - (stack.length - n) := by
      rw [List.length_drop, List.length_reverse, List.length_map]
    rw [List.extract_eq_take_drop, List.take_of_length_le (Nat.le_of_eq length)]
  rw [arguments, size_values_ofEntries, ofEntries, List.extract_toArray, all, List.drop_reverse, List.length_map, asked,
    ← List.map_take, ← List.take_eq_take_min]

/-- Where there are less entries than are to be taken off, both are left with none. -/
theorem cut_ofEntries : (ofEntries stack).cut n = ofEntries (stack.drop n) := by
  have states : (statesOf stack).length - max ((statesOf stack).length - n) 1 = min n stack.length := by
    rw [length_statesOf]
    omega
  have values : stack.length - (stack.length - n) = min n stack.length := by omega
  have kept : stack.drop (min n stack.length) = stack.drop n := by
    rcases Nat.le_total n stack.length with h | h
    · rw [Nat.min_eq_left h]
    · rw [Nat.min_eq_right h, List.drop_length, List.drop_eq_nil_of_le h]
  simp only [cut, ofEntries, Array.shrink_eq_take, List.take_toArray, List.size_toArray, List.length_reverse,
    List.take_reverse, List.length_map, states, values, drop_statesOf (Nat.min_le_right n stack.length),
    ← List.map_drop, kept]

end Stacks

/-! ## Steps -/

/-- The same progress from other places. -/
def Progress.map {γ δ : Type} (f : γ → δ) : Progress α γ → Progress α δ
  | .running c => .running (f c)
  | .finished result => .finished result

namespace Driver
variable {machine : Machine α} {source : TokenStream α} (c : Configuration α)

/-- The place of a driver with the stack of a configuration in two. -/
def ofConfiguration : Driver α where
  toStacks := .ofEntries c.stack
  lookahead := c.lookahead
  deferred := c.deferred
  pending := c.pending
  recovering := c.recovering
  errors := c.errors
  read := c.read

/-- What a step of the machine is to the driver. -/
def ofStep (stepped : Logged (Progress α)) : Logged (Progress α (Driver α)) :=
  ⟨stepped.value.map ofConfiguration, stepped.events⟩

theorem ofStep_bind {β : Type} (x : Logged β) (f : β → Logged (Progress α)) :
    ofStep (x >>= f) = x >>= fun b => ofStep (f b) := rfl

theorem top_ofConfiguration : (ofConfiguration c).top = topState c.stack := Stacks.top_ofEntries c.stack

theorem advance_ofConfiguration : (ofConfiguration c).advance source = ofStep (Machine.advance source c) := by
  rw [advance, Machine.advance, ofStep_bind]
  congr 1
  funext answer
  cases answer <;> rfl

theorem shift_ofConfiguration (next : Nat) :
    (ofConfiguration c).shift machine source next = ofStep (machine.shift source c next) := by
  have push := Stacks.push_ofEntries c.stack ⟨next, c.lookahead.value⟩
  rw [shift, Machine.shift, ofStep_bind, top_ofConfiguration]
  congr 1
  funext _
  cases deferred : c.deferred with
  | some token =>
    simp only [ofConfiguration, deferred, push]
    rfl
  | none =>
    simp only [ofConfiguration, deferred, push, ← advance_ofConfiguration]
    rfl

theorem reduceValue_ofConfiguration (action : SemanticAction α) (uncovered : Nat) (arguments : List α) :
    (ofConfiguration c).reduceValue machine action uncovered arguments =
      machine.reduceValue c action uncovered arguments := by
  cases action <;> rfl

theorem reduce_ofConfiguration (number : Nat) :
    (ofConfiguration c).reduce machine number = ofStep (machine.reduce c number) := by
  rw [reduce, Machine.reduce, top_ofConfiguration]
  cases machine.table.reductions[number]? with
  | none => rfl
  | some reduction =>
    cases machine.semantics[number]? with
    | none => rfl
    | some action =>
      have arguments : (ofConfiguration c).arguments reduction.popCount = _ :=
        Stacks.arguments_ofEntries c.stack reduction.popCount
      have cut : (ofConfiguration c).cut reduction.popCount = _ := Stacks.cut_ofEntries c.stack reduction.popCount
      simp only [arguments, cut, Stacks.top_ofEntries, reduceValue_ofConfiguration]
      cases machine.table.gotos.get? (topState (c.stack.drop reduction.popCount)) reduction.result with
      | none => rfl
      | some next =>
        have push := Stacks.push_ofEntries (c.stack.drop reduction.popCount) ⟨next, machine.reduceValue c action
          (topState (c.stack.drop reduction.popCount)) ((c.stack.take reduction.popCount).map (·.value)).reverse⟩
        simp only [push]
        rfl

/-! ## Recovery -/

theorem failure_ofConfiguration :
    (ofConfiguration c).failure machine = (machine.failure c).map ofConfiguration := by
  rw [failure, top_ofConfiguration]
  rfl

theorem discard_ofConfiguration :
    (ofConfiguration c).discard machine source = ofStep (machine.discard source c) := by
  rw [discard, Machine.discard, failure_ofConfiguration, advance_ofConfiguration, apply_ite ofStep]
  rfl

/-- The turn of the loop at a state on top. -/
theorem unwind?_of_back? {pair : Stacks α} {state : Nat} (h : pair.states.back? = some state) (popped : Nat) :
    unwind? machine pair popped =
      if machine.action state errorTerminal = .error then unwind? machine pair.pop (popped + 1)
      else some (pair, popped) := by
  rw [unwind?]
  split
  · rename_i none
    cases h.symm.trans none
  · rename_i other hother
    cases h.symm.trans hother
    rfl

theorem unwind?_empty (values : Array α) (popped : Nat) : unwind? machine ⟨#[], values⟩ popped = none := by
  rw [unwind?]
  rfl

theorem unwind?_ofEntries (stack : List (Entry α)) (popped : Nat) :
    unwind? machine (.ofEntries stack) popped = (machine.unwind? stack).map fun kept =>
      (.ofEntries kept, popped + (stack.length - kept.length)) := by
  induction stack generalizing popped with
  | nil =>
    rw [unwind?_of_back? (Stacks.back?_ofEntries []), Machine.unwind?, apply_ite (Option.map _)]
    exact ite_congr rfl (fun _ => unwind?_empty _ _) fun _ => rfl
  | cons entry stack ih =>
    rw [unwind?_of_back? (Stacks.back?_ofEntries _), Machine.unwind?, apply_ite (Option.map _), Stacks.pop_ofEntries,
      ih]
    refine ite_congr rfl (fun _ => Option.map_congr fun kept unwound => ?_) fun _ => ?_
    · -- one pop more leads to the same stack
      have shorter := (Machine.suffix_of_unwind? unwound).length_le
      rw [List.length_cons, Nat.succ_sub shorter, Nat.add_right_comm, Nat.add_assoc]
    · rw [Option.map_some, Nat.sub_self, Nat.add_zero]

theorem recover_ofConfiguration [Inhabited α] :
    (ofConfiguration c).recover machine = ofStep (machine.recover c) := by
  have unwound : unwind? machine (ofConfiguration c).toStacks 0 = _ := unwind?_ofEntries c.stack 0
  have errors : (ofConfiguration c).errors = c.errors := rfl
  have refused : (!machine.options.errorRecovery || decide (machine.options.maxErrors ≤ c.errors)) =
      !(machine.options.errorRecovery && decide (c.errors < machine.options.maxErrors)) := by
    rw [Bool.not_and, ← decide_not]
    simp only [Nat.not_lt]
  rw [recover, Machine.recover, top_ofConfiguration, unwound, errors, refused]
  cases machine.options.errorRecovery && decide (c.errors < machine.options.maxErrors) with
  | false => rfl
  | true =>
    simp only [Bool.not_true, if_true, Bool.false_eq_true, if_false]
    cases machine.unwind? c.stack with
    | none => rfl
    | some kept =>
      simp only [Option.map_some, Stacks.top_ofEntries, Nat.zero_add]
      rfl

theorem reject_ofConfiguration [Inhabited α] :
    (ofConfiguration c).reject machine source = ofStep (machine.reject source c) := by
  rw [reject, Machine.reject, failure_ofConfiguration, discard_ofConfiguration, recover_ofConfiguration,
    apply_ite ofStep, apply_ite ofStep]
  rfl

/-! ## Runs -/

/-- **A step of the driver is a step of the machine.** -/
theorem step_ofConfiguration [Inhabited α] :
    (ofConfiguration c).step machine source = ofStep (machine.step source c) := by
  have value : (ofConfiguration c).values.back? = c.stack.head?.map (·.value) :=
    Stacks.back?_values_ofEntries c.stack
  rw [step, Machine.step, top_ofConfiguration, apply_ite ofStep, value]
  refine ite_congr rfl (fun _ => rfl) fun _ => ?_
  have lookahead : (ofConfiguration c).lookahead = c.lookahead := rfl
  rw [lookahead]
  cases machine.action (topState c.stack) c.lookahead.terminal with
  | shift next => exact shift_ofConfiguration c next
  | reduce number => exact reduce_ofConfiguration c number
  | accept => rfl
  | error => exact reject_ofConfiguration c

theorem run_ofConfiguration [Inhabited α] (limit : Nat) (events : Array Event) :
    run machine source limit (ofConfiguration c) events = machine.run source limit c events := by
  induction limit generalizing c events with
  | zero => rfl
  | succ limit ih =>
    rw [run, Machine.run, step_ofConfiguration]
    simp only [ofStep]
    cases (machine.step source c).value with
    | running next => exact ih next _
    | finished result => rfl

end Driver

namespace Machine
variable {machine : Machine α} {source : TokenStream α} [Inhabited α]

/-- **The driver parses as the machine does**, with the same events. -/
theorem drive_eq_parse (limit : Nat) : machine.drive source limit = machine.parse source limit := by
  rw [drive, parse]
  congr 1
  funext answer
  cases answer with
  | error e => rfl
  | ok token =>
    have start : Driver.start token = .ofConfiguration ⟨[], token, none, none, false, 0, 1⟩ := rfl
    simp only [start, Driver.run_ofConfiguration]

end Machine

/-- A parser comes to what its machine comes to. -/
theorem Parser.parseTokens_eq [Inhabited α] (parser : Parser α) (stream : TokenStream α) :
    parser.parseTokens stream = parser.machine.parse stream Machine.stepLimit :=
  Machine.drive_eq_parse Machine.stepLimit

/-! ## Places that a run comes through -/

/-- The places that a run of the driver comes through. -/
inductive Driver.Reaches [Inhabited α] (machine : Machine α) (source : TokenStream α) : Driver α → Prop
  | start {token : Token α} (read : (source 0).value = .ok token) : Reaches machine source (.start token)
  | step {d d' : Driver α} (h : Reaches machine source d)
      (running : (d.step machine source).value = .running d') : Reaches machine source d'

/-- **The driver only comes to places of configurations.** -/
theorem Driver.Reaches.exists_configuration [Inhabited α] {machine : Machine α} {source : TokenStream α} {d : Driver α}
    (h : Reaches machine source d) : ∃ c, machine.Reaches source c ∧ d = ofConfiguration c := by
  induction h with
  | start read => exact ⟨_, .start read, rfl⟩
  | step _ running ih =>
    obtain ⟨c, reaches, rfl⟩ := ih
    rw [step_ofConfiguration] at running
    simp only [ofStep] at running
    cases stepped : (machine.step source c).value with
    | running next =>
      rw [stepped] at running
      exact ⟨next, .step reaches stepped, (Progress.running.inj running).symm⟩
    | finished result =>
      rw [stepped] at running
      cases running

/-- Where the machine comes through, the driver comes through too. -/
theorem Machine.Reaches.ofConfiguration [Inhabited α] {machine : Machine α} {source : TokenStream α}
    {c : Configuration α} (h : machine.Reaches source c) :
    Driver.Reaches machine source (.ofConfiguration c) := by
  induction h with
  | start read => exact .start read
  | step _ running ih =>
    refine .step ih ?_
    rw [Driver.step_ofConfiguration, Driver.ofStep, running]
    rfl

end TableParsing
