import TableParsing.Proofs.Parser.Mending
import TableParsing.Proofs.Parser.Stack
import TableParsing.Proofs.Parser.Steps

/-! # What is parsed derives from the grammar

At every moment of a run the leaves of the trees on the stack **explain** the tokens that have been read, all
but the last one, which is yet to be taken: they are those tokens, mended (`Explains`).  Every step keeps this:

* a shift moves the lookahead from the tokens to the leaves,
* a reduction changes neither,
* a recovery cuts off leaves and announces an error token in their place,
* a token that is left out goes into the piece of the error token that ends the leaves.

As long as no recovery has taken place, the leaves are the tokens themselves.  So in the end there is one tree
of the start symbol whose yield is the tokens, mended, and whose value is the result (`Explains.accept`). -/

namespace TableParsing

variable {α : Type} [Inhabited α]

theorem Machine.isError_errorToken (rejected : Token α) : (Machine.errorToken rejected).IsError := ⟨rfl, rfl⟩

namespace Configuration

/-- The token that is yet to be taken. -/
def upcoming (c : Configuration α) : Token α := c.deferred.getD c.lookahead

/-- The error token in front of it, if there is one. -/
def announced (c : Configuration α) : List (Token α) :=
  match c.deferred with
  | some _ => [c.lookahead]
  | none => []

end Configuration

/-- **The invariant of a run.**  The leaves are the tokens, mended. -/
structure Explains (grammar : Grammar α) (states : List Collection.State) (source : TokenStream α)
    (c : Configuration α) (tokens leaves : List (Token α)) : Prop where
  read_eq : c.read = tokens.length + 1
  begins : source.Begins (tokens ++ [c.upcoming])
  supported : Supported grammar states c.stack leaves
  mended : Mended tokens (leaves ++ c.announced)
  isError : c.deferred.isSome → c.lookahead.IsError
  /-- While tokens are left out, the leaves end with an error token. -/
  recovering : c.recovering = true → ∃ front error, leaves = front ++ [error] ∧ error.IsError
  faithful : c.errors = 0 → c.deferred = none ∧ c.recovering = false ∧ leaves = tokens

namespace Explains
variable {grammar : Grammar α} {states : List Collection.State} {source : TokenStream α}
  {machine : Machine α} {c c' : Configuration α} {tokens leaves : List (Token α)}

theorem start {token : Token α} (read : (source 0).value = .ok token) :
    Explains grammar states source ⟨[], token, none, none, false, 0, 1⟩ [] [] where
  read_eq := rfl
  begins i other h := by
    cases i with
    | zero => exact Option.some.inj h ▸ read
    | succ i => cases h
  supported := .bottom
  mended := .nil
  isError := nofun
  recovering := nofun
  faithful _ := ⟨rfl, rfl, rfl⟩

section Steps
variable {stack stack' : List (Entry α)} {lookahead token : Token α} {deferred : Option (Token α)}
  {pending pending' : Option SyntaxError} {recovering : Bool} {errors n : Nat}

theorem mended_of_none
    (h : Explains grammar states source ⟨stack, lookahead, none, pending, recovering, errors, n⟩ tokens leaves) :
    Mended tokens leaves := List.append_nil leaves ▸ h.mended

/-- The next token of the source comes up. -/
theorem begins_next
    (h : Explains grammar states source ⟨stack, lookahead, none, pending, recovering, errors, n⟩ tokens leaves)
    (read : (source n).value = .ok token) : source.Begins (tokens ++ [lookahead] ++ [token]) := by
  have read_eq : n = tokens.length + 1 := h.read_eq
  have begins : source.Begins (tokens ++ [lookahead]) := h.begins
  refine begins.snoc ?_
  rwa [List.length_append, List.length_singleton, ← read_eq]

theorem shift
    (h : Explains grammar states source ⟨stack, lookahead, none, pending, recovering, errors, n⟩ tokens leaves)
    (supported : Supported grammar states stack' (leaves ++ [lookahead]))
    (read : (source n).value = .ok token) :
    Explains grammar states source ⟨stack', token, none, pending, false, errors, n + 1⟩
      (tokens ++ [lookahead]) (leaves ++ [lookahead]) where
  read_eq := by
    rw [List.length_append]
    exact congrArg (· + 1) h.read_eq
  begins := h.begins_next read
  supported := supported
  mended := (List.append_nil _).symm ▸ h.mended_of_none.snoc lookahead
  isError := nofun
  recovering := nofun
  faithful he := ⟨rfl, rfl, by rw [(h.faithful he).2.2]⟩

theorem shiftError
    (h : Explains grammar states source ⟨stack, lookahead, some token, pending, recovering, errors, n⟩
      tokens leaves) (supported : Supported grammar states stack' (leaves ++ [lookahead])) :
    Explains grammar states source ⟨stack', token, none, pending, true, errors, n⟩ tokens
      (leaves ++ [lookahead]) where
  read_eq := h.read_eq
  begins := h.begins
  supported := supported
  mended := (List.append_nil _).symm ▸ h.mended
  isError := nofun
  recovering _ := ⟨leaves, lookahead, rfl, h.isError rfl⟩
  faithful he := nomatch (h.faithful he).1

/-- What only changes the stack and not its leaves changes nothing. -/
theorem reduce
    (h : Explains grammar states source ⟨stack, lookahead, deferred, pending, recovering, errors, n⟩
      tokens leaves) (supported : Supported grammar states stack' leaves) :
    Explains grammar states source ⟨stack', lookahead, deferred, pending, recovering, errors, n⟩
      tokens leaves :=
  ⟨h.read_eq, h.begins, supported, h.mended, h.isError, h.recovering, h.faithful⟩

theorem discard
    (h : Explains grammar states source ⟨stack, lookahead, none, pending, true, errors, n⟩ tokens leaves)
    (read : (source n).value = .ok token) :
    Explains grammar states source ⟨stack, token, none, pending, true, errors, n + 1⟩
      (tokens ++ [lookahead]) leaves where
  read_eq := by
    rw [List.length_append]
    exact congrArg (· + 1) h.read_eq
  begins := h.begins_next read
  supported := h.supported
  mended := by
    obtain ⟨front, error, rfl, isError⟩ := h.recovering rfl
    exact (List.append_nil _).symm ▸ h.mended_of_none.absorb isError lookahead
  isError := nofun
  recovering := h.recovering
  faithful he := nomatch (h.faithful he).2.1

theorem recover {back : List (Token α)}
    (h : Explains grammar states source ⟨stack, lookahead, none, pending, false, errors, n⟩
      tokens (leaves ++ back)) (supported : Supported grammar states stack' leaves) :
    Explains grammar states source
      ⟨stack', Machine.errorToken lookahead, some lookahead, pending', false, errors + 1, n⟩ tokens leaves where
  read_eq := h.read_eq
  begins := h.begins
  supported := supported
  mended := h.mended_of_none.cut (Machine.isError_errorToken lookahead)
  isError _ := Machine.isError_errorToken lookahead
  recovering := nofun
  faithful := nofun

end Steps

omit [Inhabited α] in
theorem reduceValue_eq (action : SemanticAction α) (uncovered : Nat) (arguments : List α) :
    machine.reduceValue c action uncovered arguments =
      action.apply (c.pending.getD (machine.fallbackError uncovered)) arguments := by
  cases action <;> rfl

/-- **Every step keeps the invariant.** -/
theorem step (wf : grammar.cfg.WellFormed) (automaton : grammar.cfg.IsAutomaton states)
    (drives : machine.Drives grammar states)
    (h : Explains grammar states source c tokens leaves) (hs : machine.Step source c c') :
    ∃ tokens' leaves', Explains grammar states source c' tokens' leaves' := by
  obtain ⟨stack, lookahead, deferred, pending, recovering, errors, n⟩ := c
  -- a shift extends the leaves by the lookahead, a token of the source or an error token
  have push {next : Nat} (action : machine.action (topState stack) lookahead.terminal = .shift next) :
      Supported grammar states (⟨next, lookahead.value⟩ :: stack) (leaves ++ [lookahead]) := by
    obtain ⟨state, top, leads⟩ := drives.shift _ _ _ action
    exact h.supported.push (.leaf lookahead) top leads
  cases hs with
  | shift action deferred read =>
    cases deferred
    exact ⟨_, _, h.shift (push action) read⟩
  | shiftError action deferred =>
    cases deferred
    exact ⟨_, _, h.shiftError (push action)⟩
  | reduce reduce hreduction haction goto =>
    obtain ⟨state, p, production, top, hp, hc, reduces⟩ := drives.reduce _ _ _ reduce
    cases reduces.reduction.symm.trans hreduction
    cases reduces.action.symm.trans haction
    obtain ⟨next, under, hunder, leads, supported⟩ := h.supported.reduce automaton top hp hc
      (pending.getD (machine.fallbackError (topState (stack.drop production.symbols.length))))
    have result := wf.result_lt _ (Grammar.mem_rules_of_getElem? hp)
    cases (drives.goto _ _ _ under hunder leads result).symm.trans goto
    rw [reduceValue_eq]
    exact ⟨_, _, h.reduce supported⟩
  | discard action deferred recovering read =>
    cases deferred
    cases recovering
    exact ⟨_, _, h.discard read⟩
  | recover action deferred recovering unwound =>
    cases deferred
    cases recovering
    obtain ⟨popped, rfl⟩ := Machine.suffix_of_unwind? unwound
    -- what was unwound takes its leaves along
    obtain ⟨front, back, rfl, supported⟩ := h.supported.of_append
    exact ⟨_, _, h.recover supported⟩

/-- The tokens that a run has read are explained. -/
theorem of_reaches (wf : grammar.cfg.WellFormed) (automaton : grammar.cfg.IsAutomaton states)
    (drives : machine.Drives grammar states) (h : machine.Reaches source c) :
    ∃ tokens leaves, Explains grammar states source c tokens leaves := by
  induction h with
  | start read => exact ⟨_, _, start read⟩
  | step _ running ih =>
    obtain ⟨tokens, leaves, h⟩ := ih
    exact h.step wf automaton drives (Machine.step_of_running running)

/-- What is accepted explains all tokens in front of the end. -/
theorem accept (automaton : grammar.cfg.IsAutomaton states) (drives : machine.Drives grammar states)
    (h : Explains grammar states source c tokens leaves) {v : α}
    (finish : (machine.step source c).value = .finished (.ok v)) :
    c.lookahead.terminal = endTerminal ∧ source.Begins (tokens ++ [c.lookahead]) ∧
      ∃ tree : grammar.Tree (.nonTerminal grammar.start), tree.value = v ∧ tree.yield = leaves ∧
        Mended tokens leaves := by
  obtain ⟨action, value⟩ := Machine.accept_of_finished finish
  obtain ⟨atEnd, state, top, hc⟩ := drives.accept _ _ action
  -- the error token is not the end of the input, so none is announced
  have deferred : c.deferred = none := by
    cases hd : c.deferred with
    | none => rfl
    | some token =>
      have isError := (h.isError (by rw [hd]; rfl)).terminal_eq
      rw [atEnd] at isError
      cases isError
  obtain ⟨stack, lookahead, deferred', pending, recovering, errors, n⟩ := c
  cases deferred
  obtain ⟨tree, yield, values⟩ := h.supported.accept automaton top hc
  have head : stack.head?.map (·.value) = some tree.value := by
    rw [← List.head?_map]
    exact congrArg List.head? values
  refine ⟨atEnd, h.begins, tree, ?_, yield, h.mended_of_none⟩
  rw [value, head]
  rfl

end Explains

end TableParsing
