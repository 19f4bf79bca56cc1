import TableParsing.Proofs.Operators.Drafts
import TableParsing.Proofs.Parser.Correctness
import TableParsing.Proofs.Parser.Outcome

/-! # Parsing expressions

A machine for expressions reads a row of operands and operators from left to right, as in `Operators.Shunts`: what it
has on its stack are the operators that wait, each with the value in front of it (`Reads`).  Where an operator waits the
machine shifts it, where one is done the machine reduces, and where two clash it has no action (`Reads.step`,
`Reads.rejects`).  So **a row comes to what climbing makes of it** (`parse_climbs`). -/

namespace TableParsing

open Collection (State)

variable {α : Type}

/-! ## Machines for expressions -/

/-- Whether a machine is made from the tables of a grammar of expressions, with some functions for the values. -/
structure Machine.Evaluates (grammar : Grammar α) (mergeCores : Bool) (operand : Nat) (operators : List Nat)
    (precedence : Nat → Precedence) (leaf : List α → α) (node : Nat → List α → α) (machine : Machine α) : Prop where
  wellFormed : grammar.cfg.WellFormed
  ranked : grammar.IsRanked operand operators precedence
  error_lt : ∀ t ∈ operand :: operators, errorTerminal < t
  leaf : ∀ (p : Nat) production, grammar.productions[p]? = some production →
    production.symbols = (grammar.cfg.operandRule operand).symbols → production.action = .ofValues leaf
  node : ∀ (p : Nat) production, grammar.productions[p]? = some production →
    ∀ o, production.symbols = (grammar.cfg.operatorRule o).symbols → production.action = .ofValues (node o)
  drives : machine.Drives grammar (grammar.cfg.collection mergeCores)
  heeds : machine.Heeds grammar (grammar.cfg.collection mergeCores)
  action_eq : ∀ (i t : Nat) state cell, (grammar.cfg.collection mergeCores)[i]? = some state →
    t < grammar.terminals.length → grammar.cellAt i state t = .ok cell →
      machine.action i t = Cfg.actionOf (grammar.cfg.reductions (grammar.cfg.collection mergeCores)) cell

namespace Machine.Evaluates
variable {grammar : Grammar α} {mergeCores : Bool} {operand : Nat} {operators : List Nat}
  {precedence : Nat → Precedence} {leaf : List α → α} {node : Nat → List α → α} {machine : Machine α}
  (h : machine.Evaluates grammar mergeCores operand operators precedence leaf node)
  {source : TokenStream α} {stack : List (Entry α)} {place : Cfg.Place} {waiting : List Nat} {lookahead next : Token α}
  {n p t : Nat} {core : Core}
include h

theorem lt_of_closes (closes : Cfg.Closes operators t) : t < grammar.terminals.length := by
  rcases closes with rfl | ho
  · exact h.wellFormed.endTerminal_lt
  · obtain ⟨terminal, there, -⟩ := h.ranked.shift t ho
    exact (List.getElem?_eq_some_iff.mp there).1

/-- No state has an action for the error terminal. -/
theorem action_error (i : Nat) : machine.action i errorTerminal = .error := by
  have automaton := Cfg.isAutomaton_collection h.wellFormed mergeCores
  have foreign : ¬Cfg.Closes operators errorTerminal := by
    rintro (same | ho)
    · cases same
    · exact Nat.lt_irrefl _ (h.error_lt _ (List.mem_cons_of_mem _ ho))
  cases action : machine.action i errorTerminal with
  | error => rfl
  | accept => cases (h.drives.accept i errorTerminal action).1
  | reduce number =>
    obtain ⟨state, p, production, hs, hp, allows, -⟩ := h.heeds i errorTerminal number action
    obtain ⟨word, after⟩ := Cfg.exists_stateAfter h.wellFormed hs
    obtain ⟨word, -, valid⟩ := Cfg.exists_valid_after h.wellFormed after hs allows
    exact absurd (valid.closes h.ranked.isExpressions h.wellFormed) foreign
  | shift target =>
    obtain ⟨state, hs, leads⟩ := h.drives.shift i errorTerminal target action
    obtain ⟨word, after⟩ := Cfg.exists_stateAfter h.wellFormed hs
    obtain ⟨state', hs', follows⟩ := automaton.follows after
    cases hs.symm.trans hs'
    obtain ⟨core, viable, next⟩ := (automaton.exists_lookup_iff hs follows.spells).mp ⟨target, leads⟩
    obtain ⟨place, rfl, holds⟩ := viable.exists_place h.ranked.isExpressions
    have demanded : grammar.cfg.Demanded operand operators place errorTerminal (.shift target) :=
      holds.demands_shift h.ranked.isExpressions next
    generalize ht : errorTerminal = t at demanded
    cases demanded with
    | operand => exact absurd ht (Nat.ne_of_lt (h.error_lt _ List.mem_cons_self))
    | operator ho => exact absurd (ht ▸ .inr ho) foreign

/-- So there is no recovery. -/
theorem unwind?_eq_none (stack : List (Entry α)) : machine.unwind? stack = none := by
  induction stack with
  | nil => rw [unwind?, if_pos (h.action_error _)]
  | cons entry stack ih => rw [unwind?, if_pos (h.action_error _), ih]

variable [Inhabited α]

variable (place) in
/-- A terminal that is viable in the place of a stack is shifted, if its cell comes to that. -/
theorem exists_shift (along : Along (grammar.cfg.collection mergeCores) stack (place.word grammar.cfg operand))
    (viable : grammar.cfg.Viable (place.word grammar.cfg operand) core)
    (hnext : grammar.cfg.nextSymbol? core = some (.terminal lookahead.terminal))
    (filled : ∀ i state target, (grammar.cfg.collection mergeCores)[i]? = some state →
      Cfg.stateAfter (grammar.cfg.collection mergeCores) (place.word grammar.cfg operand) = some i →
      (lookahead.terminal, .shift target) ∈ grammar.cfg.demands state →
      grammar.cellAt i state lookahead.terminal = .ok (.demand (.shift target)))
    (read : (source n).value = .ok next) : ∃ i,
      (machine.step source (.clean stack lookahead n)).value =
        .running (.clean (⟨i, lookahead.value⟩ :: stack) next (n + 1)) ∧
      Along (grammar.cfg.collection mergeCores) (⟨i, lookahead.value⟩ :: stack)
        (.terminal lookahead.terminal :: place.word grammar.cfg operand) := by
  have automaton := Cfg.isAutomaton_collection h.wellFormed mergeCores
  refine h.drives.exists_shift h.wellFormed automaton lookahead along viable hnext
    (fun state target top _ leads bound => ?_) read
  have cell := filled _ state target top along.stateAfter_eq (Cfg.shift_mem_of_lookup leads)
  exact h.action_eq _ _ state _ top bound cell

variable (source place) in
/-- A production that is valid in the place of a stack is reduced, if its cell comes to that. -/
theorem exists_reduce {production : Production α}
    (along : Along (grammar.cfg.collection mergeCores) stack (place.word grammar.cfg operand))
    (hp : grammar.productions[p]? = some production)
    (valid : grammar.cfg.Valid (place.word grammar.cfg operand) ⟨p, production.symbols.length⟩ lookahead.terminal)
    (filled : ∀ i state, (grammar.cfg.collection mergeCores)[i]? = some state →
      Cfg.stateAfter (grammar.cfg.collection mergeCores) (place.word grammar.cfg operand) = some i →
      (lookahead.terminal, .reduce p) ∈ grammar.cfg.demands state →
      grammar.cellAt i state lookahead.terminal = .ok (.demand (.reduce p)))
    (sub : ∀ o ∈ waiting, o ∈ operators)
    (uncovered : (place.word grammar.cfg operand).drop production.symbols.length = grammar.cfg.context waiting) :
    ∃ i e, (machine.step source (.clean stack lookahead n)).value =
        .running (.clean
          (⟨i, production.action.apply e ((stack.take production.symbols.length).map (·.value)).reverse⟩ ::
            stack.drop production.symbols.length) lookahead n) ∧
      ∀ value, Along (grammar.cfg.collection mergeCores) (⟨i, value⟩ :: stack.drop production.symbols.length)
        (grammar.cfg.expression :: grammar.cfg.context waiting) := by
  have automaton := Cfg.isAutomaton_collection h.wellFormed mergeCores
  obtain ⟨state, top, follows⟩ := along.follows automaton
  have rule := Grammar.getElem?_rules hp
  have asks := Cfg.reduce_mem_of_allows rule (follows.allows _ _ valid)
  have bound := h.lt_of_closes (valid.closes h.ranked.isExpressions h.wellFormed)
  have action := h.action_eq _ _ state _ top bound (filled _ state top along.stateAfter_eq asks)
  -- the machine reduces what the place asks for, which is this production
  obtain ⟨state', p', production', top', hp', allows, reduces⟩ := h.heeds _ _ _ action
  cases top.symm.trans top'
  have same := h.ranked.eq_of_demanded
    (Grammar.demanded h.wellFormed h.ranked.isExpressions along.stateAfter_eq top asks)
    (Grammar.demanded h.wellFormed h.ranked.isExpressions along.stateAfter_eq top
      (Cfg.reduce_mem_of_allows (Grammar.getElem?_rules hp') allows)) nofun nofun
  cases same
  cases hp.symm.trans hp'
  have under := along.drop production.symbols.length
  rw [uncovered] at under
  obtain ⟨core, viable, hnext⟩ := h.ranked.isExpressions.exists_viable_expression h.wellFormed sub
  obtain ⟨below, target, hbelow, -, leads⟩ := under.exists_lookup automaton viable hnext
  have result : production.result = grammar.cfg.start := h.ranked.isExpressions.result_eq rule
  have goto := h.drives.goto _ _ _ below hbelow leads h.wellFormed.start_lt
  rw [← result] at goto
  have known : lookahead.terminal < machine.table.actions.terminalCount := h.drives.terminalCount_eq.symm ▸ bound
  exact ⟨target, _, running_reduce known action reduces.reduction reduces.action goto,
    fun value => under.push hbelow leads⟩

variable (waiting) in
/-- An operand is shifted and reduced. -/
theorem runs_operand (along : Along (grammar.cfg.collection mergeCores) stack (grammar.cfg.context waiting))
    (sub : ∀ o ∈ waiting, o ∈ operators) (isOperand : lookahead.terminal = operand)
    (closes : Cfg.Closes operators next.terminal) (read : (source n).value = .ok next) : ∃ i,
      machine.Runs source 2 (.clean stack lookahead n) (.clean (⟨i, leaf [lookahead.value]⟩ :: stack) next (n + 1)) ∧
      Along (grammar.cfg.collection mergeCores) (⟨i, leaf [lookahead.value]⟩ :: stack)
        (grammar.cfg.expression :: grammar.cfg.context waiting) := by
  subst isOperand
  have expressions := h.ranked.isExpressions
  obtain ⟨core, viable, hnext⟩ := expressions.exists_viable_operand h.wellFormed sub
  obtain ⟨i, shifted, behind⟩ := h.exists_shift (.expecting waiting) along viable hnext
    (fun i state target hs after shift => h.ranked.cellAt_of_alone h.wellFormed hs (.expecting waiting) after
      shift fun e he => by cases he; rfl) read
  obtain ⟨p, hp⟩ := expressions.exists_operand
  obtain ⟨production, there, symbols⟩ := Grammar.exists_production_of_rule hp
  have length : production.symbols.length = 1 := congrArg List.length symbols
  have valid := expressions.valid_operand h.wellFormed sub hp closes
  obtain ⟨k, e, reduced, lies⟩ := h.exists_reduce source (.operand waiting) (n := n + 1) behind there
    (length ▸ valid)
    (fun i state hs after asks => h.ranked.cellAt_of_alone h.wellFormed hs (.operand waiting) after asks
      fun e he => by
        cases he with
        | reduceOperand hp' => rw [expressions.unique _ _ _ hp hp'])
    sub (by rw [length]; rfl)
  rw [h.leaf p production there symbols, length] at reduced
  rw [length] at lies
  exact ⟨k, .step shifted (.single reduced), lies _⟩

variable {o : Nat}

variable (source) in
/-- An operator that is done is reduced. -/
theorem reduces_operator {i j k : Nat} {left value right : α}
    (along : Along (grammar.cfg.collection mergeCores) (⟨k, right⟩ :: ⟨j, value⟩ :: ⟨i, left⟩ :: stack)
      (Cfg.Place.word grammar.cfg operand (.expression (o :: waiting))))
    (sub : ∀ o' ∈ o :: waiting, o' ∈ operators) (closes : Cfg.Closes operators lookahead.terminal)
    (takes : lookahead.terminal ∈ operators → (precedence o).Takes (precedence lookahead.terminal)) : ∃ l,
      (machine.step source (.clean (⟨k, right⟩ :: ⟨j, value⟩ :: ⟨i, left⟩ :: stack) lookahead n)).value =
        .running (.clean (⟨l, node o [left, value, right]⟩ :: stack) lookahead n) ∧
      Along (grammar.cfg.collection mergeCores) (⟨l, node o [left, value, right]⟩ :: stack)
        (grammar.cfg.expression :: grammar.cfg.context waiting) := by
  have expressions := h.ranked.isExpressions
  have others : ∀ o' ∈ waiting, o' ∈ operators := fun o' ho => sub o' (List.mem_cons_of_mem _ ho)
  obtain ⟨p, hp⟩ := expressions.exists_operator o (sub o List.mem_cons_self)
  obtain ⟨production, there, symbols⟩ := Grammar.exists_production_of_rule hp
  have length : production.symbols.length = 3 := congrArg List.length symbols
  have valid := expressions.valid_operator h.wellFormed others hp closes
  obtain ⟨l, e, reduced, lies⟩ := h.exists_reduce source (.expression (o :: waiting)) (n := n) along
    there (length ▸ valid) (fun i state hs after asks => by
      rcases closes with atEnd | ht
      · rw [atEnd]
        exact h.ranked.cellAt_end h.wellFormed hs sub after hp
      · obtain ⟨target, cell⟩ := h.ranked.exists_cellAt_operator h.wellFormed hs sub after hp ht
        rw [cell, Precedence.decide_of_takes (takes ht)])
    others (by rw [length]; rfl)
  rw [h.node p production there o symbols, length] at reduced
  rw [length] at lies
  exact ⟨l, reduced, lies _⟩

/-- An operator that the one in front waits for is shifted. -/
theorem shifts_operator (along : Along (grammar.cfg.collection mergeCores) stack
      (Cfg.Place.word grammar.cfg operand (.expression waiting)))
    (sub : ∀ o ∈ waiting, o ∈ operators) (ht : lookahead.terminal ∈ operators)
    (awaits : ∀ o ∈ waiting.head?, (precedence o).Awaits (precedence lookahead.terminal))
    (read : (source n).value = .ok next) : ∃ i,
      (machine.step source (.clean stack lookahead n)).value =
        .running (.clean (⟨i, lookahead.value⟩ :: stack) next (n + 1)) ∧
      Along (grammar.cfg.collection mergeCores) (⟨i, lookahead.value⟩ :: stack)
        (grammar.cfg.context (lookahead.terminal :: waiting)) := by
  have expressions := h.ranked.isExpressions
  obtain ⟨core, viable, hnext⟩ := expressions.exists_viable_operator h.wellFormed sub ht
  refine h.exists_shift (.expression waiting) along viable hnext (fun i state target hs after shift => ?_) read
  cases waiting with
  | nil =>
    refine h.ranked.cellAt_of_alone h.wellFormed hs (.expression []) after shift fun e he => ?_
    generalize lookahead.terminal = t at he ht
    cases he with
    | operator => rfl
    | accept => exact absurd ht expressions.end_notMem
  | cons o waiting =>
    obtain ⟨p, hp⟩ := expressions.exists_operator o (sub o List.mem_cons_self)
    rw [h.ranked.cellAt_operator h.wellFormed hs sub after hp ht shift, Precedence.decide_of_awaits (awaits o rfl)]

/-- An operator that clashes with the one in front of it ends the run. -/
theorem rejects_operator (along : Along (grammar.cfg.collection mergeCores) stack
      (Cfg.Place.word grammar.cfg operand (.expression (o :: waiting))))
    (sub : ∀ o' ∈ o :: waiting, o' ∈ operators) (ht : lookahead.terminal ∈ operators)
    (clashes : (precedence o).Clashes (precedence lookahead.terminal)) : ∃ e,
      (machine.step source (.clean stack lookahead n)).value = .finished (.error (.syntaxError e)) := by
  obtain ⟨state, top, -⟩ := along.follows (Cfg.isAutomaton_collection h.wellFormed mergeCores)
  obtain ⟨p, hp⟩ := h.ranked.isExpressions.exists_operator o (sub o List.mem_cons_self)
  obtain ⟨target, cell⟩ := h.ranked.exists_cellAt_operator h.wellFormed top sub along.stateAfter_eq hp ht
  rw [Precedence.decide_of_clashes clashes] at cell
  have bound := h.lt_of_closes (.inr ht)
  have action := h.action_eq _ _ state _ top bound cell
  have known : lookahead.terminal < machine.table.actions.terminalCount := h.drives.terminalCount_eq.symm ▸ bound
  refine ⟨machine.syntaxError (topState stack) lookahead, ?_⟩
  rw [step_eq_recover known action, recover]
  simp only [Configuration.clean, h.unwind?_eq_none, ite_self]
  rfl

/-- The end behind an expression is accepted. -/
theorem accepts {i : Nat} {value : α} (along : Along (grammar.cfg.collection mergeCores) [⟨i, value⟩]
      (Cfg.Place.word grammar.cfg operand (.expression []))) (atEnd : lookahead.terminal = endTerminal) :
    (machine.step source (.clean [⟨i, value⟩] lookahead n)).value = .finished (.ok value) := by
  obtain ⟨state, top, follows⟩ := along.follows (Cfg.isAutomaton_collection h.wellFormed mergeCores)
  have asks := Cfg.accept_mem_of_has ((follows.has_iff _).mpr (Cfg.viable_accept operand))
  have cell : grammar.cellAt i state endTerminal = .ok (.demand .accept) := by
    refine h.ranked.cellAt_of_alone h.wellFormed top (.expression []) along.stateAfter_eq asks fun e he => ?_
    generalize ht : endTerminal = t at he
    cases he with
    | operator ho => exact absurd (ht ▸ ho) h.ranked.isExpressions.end_notMem
    | accept => rfl
  have bound := h.wellFormed.endTerminal_lt
  have action := h.action_eq _ _ state _ top bound cell
  rw [← atEnd] at action bound
  exact finished_accept (h.drives.terminalCount_eq.symm ▸ bound) action

end Machine.Evaluates

/-! ## Rows of tokens -/

/-- Whether tokens are operators with the operands behind them. -/
def IsRow (operand : Nat) (operators : List Nat) (row : List (Token α × Token α)) : Prop :=
  ∀ link ∈ row, link.1.terminal ∈ operators ∧ link.2.terminal = operand

/-- The tokens of a row. -/
def rowTokens (row : List (Token α × Token α)) : List (Token α) := row.flatMap fun link => [link.1, link.2]

/-- A row with the values of its operands. -/
def rowValues (leaf : List α → α) (row : List (Token α × Token α)) : List (Token α × α) :=
  row.map fun link => (link.1, leaf [link.2.value])

/-- Operators that are told apart by their terminals. -/
def Operators.ofTerminals (precedence : Nat → Precedence) (node : Nat → List α → α) : Operators (Token α) α where
  precedence token := precedence token.terminal
  combine token left right := node token.terminal [left, token.value, right]

/-- What lies on a stack for operators that wait. -/
def heldValues : List (α × Token α) → List α
  | [] => []
  | (left, operator) :: waiting => operator.value :: left :: heldValues waiting

theorem closes_headD {operand : Nat} {operators : List Nat} {row : List (Token α × Token α)} {last : Token α}
    (isRow : IsRow operand operators row) (atEnd : last.terminal = endTerminal) :
    Cfg.Closes operators ((rowTokens row).headD last).terminal := by
  cases row with
  | nil => exact .inl atEnd
  | cons link row => exact .inr (isRow link List.mem_cons_self).1

/-- How a configuration stands for how far a row has been read. -/
inductive Reads (grammar : Grammar α) (mergeCores : Bool) (operand : Nat) (operators : List Nat) (leaf : List α → α)
    (source : TokenStream α) (last : Token α) : Configuration α → Operators.Shunt (Token α) α → Prop
  | intro {stack : List (Entry α)} {i n : Nat} {waiting : List (α × Token α)} {value : α}
      {row : List (Token α × Token α)}
      (along : Along (grammar.cfg.collection mergeCores) (⟨i, value⟩ :: stack)
        (grammar.cfg.expression :: grammar.cfg.context (waiting.map fun held => held.2.terminal)))
      (held : stack.map (·.value) = heldValues waiting)
      (known : ∀ held ∈ waiting, held.2.terminal ∈ operators)
      (isRow : IsRow operand operators row)
      (tokens : source.Continues n (rowTokens row ++ [last])) :
      Reads grammar mergeCores operand operators leaf source last
        (.clean (⟨i, value⟩ :: stack) ((rowTokens row).headD last) (n + 1)) ⟨waiting, value, rowValues leaf row⟩

namespace Reads
variable [Inhabited α] {grammar : Grammar α} {mergeCores : Bool} {operand : Nat} {operators : List Nat}
  {precedence : Nat → Precedence} {leaf : List α → α} {node : Nat → List α → α} {machine : Machine α}
  {source : TokenStream α} {last first : Token α} {c : Configuration α} {s s' : Operators.Shunt (Token α) α}
  {row : List (Token α × Token α)}
  (h : machine.Evaluates grammar mergeCores operand operators precedence leaf node)
  (atEnd : last.terminal = endTerminal)
include h atEnd

/-- Behind the first operand a machine reads the row. -/
theorem exists_start (isOperand : first.terminal = operand) (isRow : IsRow operand operators row)
    (tokens : source.Begins (first :: rowTokens row ++ [last])) : ∃ c, machine.Runs source 2 (.clean [] first 1) c ∧
      Reads grammar mergeCores operand operators leaf source last c ⟨[], leaf [first.value], rowValues leaf row⟩ := by
  have whole : source.Continues 0 ([first] ++ (rowTokens row ++ [last])) := tokens.continues
  have behind : source.Continues 1 (rowTokens row ++ [last]) := (TokenStream.continues_append.mp whole).2
  obtain ⟨i, runs, along⟩ := h.runs_operand [] .bottom nofun isOperand (closes_headD isRow atEnd) behind.head
  exact ⟨_, runs, .intro along rfl nofun isRow behind⟩

/-- **What is done next to a row, a machine does.** -/
theorem step (reads : Reads grammar mergeCores operand operators leaf source last c s)
    (shunts : (Operators.ofTerminals precedence node).Shunts s s') : ∃ m c', machine.Runs source m c c' ∧
      Reads grammar mergeCores operand operators leaf source last c' s' := by
  obtain @⟨stack, i, n, waiting, value, row, along, held, known, isRow, tokens⟩ := reads
  have sub : ∀ o ∈ waiting.map fun held => held.2.terminal, o ∈ operators := List.forall_mem_map.mpr known
  generalize hrest : rowValues leaf row = rest at shunts
  cases shunts with
  | @wait _ _ link rest awaits =>
    cases row with
    | nil => cases hrest
    | cons link row =>
      cases hrest
      obtain ⟨⟨isOperator, isOperand⟩, others⟩ := List.forall_mem_cons.mp isRow
      have whole : source.Continues n ([link.1, link.2] ++ (rowTokens row ++ [last])) := tokens
      have behind : source.Continues (n + 1 + 1) (rowTokens row ++ [last]) := (TokenStream.continues_append.mp whole).2
      obtain ⟨j, shifted, along⟩ := h.shifts_operator along sub isOperator (fun o ho => by
        rw [List.head?_map, Option.mem_map] at ho
        obtain ⟨held, hheld, rfl⟩ := ho
        exact awaits held hheld) (tokens 1 link.2 rfl)
      obtain ⟨k, runs, along⟩ := h.runs_operand (link.1.terminal :: waiting.map fun held => held.2.terminal)
        along (List.forall_mem_cons.mpr ⟨isOperator, sub⟩) isOperand (closes_headD others atEnd) behind.head
      have known : ∀ held ∈ (value, link.1) :: waiting, held.2.terminal ∈ operators :=
        List.forall_mem_cons.mpr ⟨isOperator, known⟩
      refine ⟨_, _, .step shifted runs, .intro along ?_ known others behind⟩
      rw [List.map_cons, List.map_cons, held, heldValues]
  | @combine top waiting _ _ takes =>
    subst hrest
    obtain ⟨left, operator⟩ := top
    obtain ⟨⟨j, _⟩, stack, rfl, holdsOperator, below⟩ := List.map_eq_cons_iff.mp held
    obtain ⟨⟨k, _⟩, stack, rfl, holdsLeft, under⟩ := List.map_eq_cons_iff.mp below
    cases holdsOperator
    cases holdsLeft
    obtain ⟨l, reduced, along⟩ := h.reduces_operator source (n := n + 1) along sub
      (closes_headD isRow atEnd) (fun isOperator => by
        cases row with
        | nil =>
          have isOperator : last.terminal ∈ operators := isOperator
          exact absurd (atEnd ▸ isOperator) h.ranked.isExpressions.end_notMem
        | cons link row => exact takes _ rfl)
    exact ⟨_, _, .single reduced, .intro along under (List.forall_mem_cons.mp known).2 isRow tokens⟩

theorem runs (reads : Reads grammar mergeCores operand operators leaf source last c s)
    (steps : Relation.ReflTransGen (Operators.ofTerminals precedence node).Shunts s s') :
    ∃ m c', machine.Runs source m c c' ∧ Reads grammar mergeCores operand operators leaf source last c' s' := by
  induction steps using Relation.ReflTransGen.head_induction_on generalizing c with
  | refl => exact ⟨0, c, .refl c, reads⟩
  | head shunts _ ih =>
    obtain ⟨m, c', runs, reads⟩ := reads.step h atEnd shunts
    obtain ⟨m', last, runs', reads⟩ := ih reads
    exact ⟨m + m', last, runs.trans runs', reads⟩

omit atEnd in
/-- Where operators clash the token is rejected. -/
theorem rejects (reads : Reads grammar mergeCores operand operators leaf source last c s)
    (clash : (Operators.ofTerminals precedence node).Clash s) :
    ∃ e, (machine.step source c).value = .finished (.error (.syntaxError e)) := by
  obtain @⟨stack, i, n, waiting, value, row, along, held, known, isRow, tokens⟩ := reads
  have sub : ∀ o ∈ waiting.map fun held => held.2.terminal, o ∈ operators := List.forall_mem_map.mpr known
  generalize hrest : rowValues leaf row = rest at clash
  obtain @⟨top, waiting, _, link, rest, clashes⟩ := clash
  cases row with
  | nil => cases hrest
  | cons link row =>
    cases hrest
    exact h.rejects_operator along sub (isRow link List.mem_cons_self).1 clashes

/-- Where nothing is left the expression is accepted. -/
theorem finishes {v : α} (reads : Reads grammar mergeCores operand operators leaf source last c ⟨[], v, []⟩) :
    (machine.step source c).value = .finished (.ok v) := by
  generalize hrest : ([] : List (Token α × α)) = rest at reads
  generalize hwaiting : ([] : List (α × Token α)) = waiting at reads
  obtain @⟨stack, i, n, waiting, value, row, along, held, known, isRow, tokens⟩ := reads
  subst hwaiting
  cases row with
  | cons link row => cases hrest
  | nil =>
    cases List.map_eq_nil_iff.mp held
    exact h.accepts along atEnd

/-- **A row comes to what climbing makes of it.** -/
theorem yields (agree : ∀ o ∈ operators, ∀ o' ∈ operators, (precedence o).level = (precedence o').level →
      (precedence o).associativity = (precedence o').associativity)
    (isOperand : first.terminal = operand) (isRow : IsRow operand operators row)
    (tokens : source.Begins (first :: rowTokens row ++ [last])) :
    match (Operators.ofTerminals precedence node).climb (leaf [first.value]) (rowValues leaf row) with
    | some v => machine.Yields source (.ok v)
    | none => ∃ e, machine.Yields source (.error (.syntaxError e)) := by
  obtain ⟨c, runs, reads⟩ := exists_start h atEnd isOperand isRow tokens
  have agrees : (Operators.ofTerminals precedence node).Agree (rowValues leaf row) :=
    List.forall_mem_map.mpr fun link hl => List.forall_mem_map.mpr fun other ho =>
      agree _ (isRow link hl).1 _ (isRow other ho).1
  have read : (source 0).value = .ok first := tokens 0 first rfl
  have comes := Operators.comes_climb_row (leaf [first.value]) agrees
  cases climbs : (Operators.ofTerminals precedence node).climb (leaf [first.value]) (rowValues leaf row) with
  | some v =>
    rw [climbs] at comes
    obtain ⟨m, c', runs', reads⟩ := reads.runs h atEnd comes
    exact (runs.trans runs').yields read (reads.finishes h atEnd)
  | none =>
    rw [climbs] at comes
    obtain ⟨s, steps, clash⟩ := comes
    obtain ⟨m, c', runs', reads⟩ := reads.runs h atEnd steps
    obtain ⟨e, rejected⟩ := reads.rejects h clash
    exact ⟨e, (runs.trans runs').yields read rejected⟩

end Reads

/-! ## Parsers of expressions -/

/-- The precedence of an operator. -/
def GrammarDraft.rank (draft : GrammarDraft α) (o : Nat) : Precedence := (draft.precedenceOf o).getD ⟨0, .left⟩

/-- The operators of a draft. -/
def GrammarDraft.operators (draft : GrammarDraft α) (node : Nat → List α → α) : Operators (Token α) α :=
  .ofTerminals draft.rank node

section Draft
variable {draft : GrammarDraft α} {operand : Nat} {operators : List Nat} {leaf : List α → α} {node : Nat → List α → α}
  {grammar : Grammar α} {options : ParserOptions} {parser : Parser α}

theorem GrammarDraft.IsExpressions.precedenceOf_eq (h : draft.IsExpressions operand operators leaf node) :
    ∀ o ∈ operators, draft.precedenceOf o = some (draft.rank o) := by
  intro o ho
  obtain ⟨precedence, ranked⟩ := h.ranked o ho
  rw [rank, ranked, Option.getD_some]

/-- The machine of a draft of expressions. -/
theorem GrammarDraft.IsExpressions.evaluates [Inhabited α] (h : draft.IsExpressions operand operators leaf node)
    (declared : draft.Declared) (finish : draft.finish.run.value = .ok grammar)
    (compiled : (grammar.toParser options).run.value = .ok parser) :
    parser.machine.Evaluates grammar options.mergeCores operand operators draft.rank leaf node := by
  have finished := GrammarDraft.finished_of_finish finish
  have ofGrammar : grammar.Declared := ⟨draft, declared, finish⟩
  have wf := ofGrammar.wellFormed
  refine ⟨wf, h.isRanked finished h.precedenceOf_eq, h.error_lt, fun p production hp symbols => ?_,
    fun p production hp o symbols => ?_, Grammar.drives_of_toParser compiled wf, Grammar.heeds_of_toParser compiled wf,
    fun i t state cell hs known filled => Grammar.action_of_cellAt compiled wf hs known filled⟩
  · rcases h.cases_production finished (List.mem_of_getElem? hp) with ⟨-, action⟩ | ⟨o, -, same, -⟩
    · exact action
    · cases same.symm.trans symbols
  · rcases h.cases_production finished (List.mem_of_getElem? hp) with ⟨same, -⟩ | ⟨o', -, same, action, -⟩
    · cases same.symm.trans symbols
    · cases same.symm.trans symbols
      exact action

/-- **Expressions are parsed by precedence climbing.**  A draft of an operand and any number of operators, all of which
have been grouped, is finished to a grammar that has tables under all options, and parsers if its patterns are well
formed.  A parse of operands with operators between them comes to what climbing makes of them, and to a syntax error
exactly if a part that is to be split has several operators of its loosest level, and they do not group. -/
theorem parse_climbs [Inhabited α] (declared : draft.Declared)
    (expressions : draft.IsExpressions operand operators leaf node) :
    ∃ grammar, draft.finish.run.value = .ok grammar ∧
      (∀ mergeCores, ∃ table, grammar.table mergeCores = .ok table) ∧
      ((∀ rule ∈ grammar.lexerRules.rules, ∃ nfa, Nfa.ofPattern rule.pattern = .ok nfa) →
        ∀ options, ∃ parser, (grammar.toParser options).run.value = .ok parser) ∧
      ∀ options parser, (grammar.toParser options).run.value = .ok parser →
        ∀ (source : TokenStream α) (first last : Token α) (row : List (Token α × Token α)),
          first.terminal = operand → IsRow operand operators row → last.terminal = endTerminal →
          source.Begins (first :: rowTokens row ++ [last]) →
          (∀ v, parser.machine.Yields source (.ok v) ↔
            (draft.operators node).climb (leaf [first.value]) (rowValues leaf row) = some v) ∧
          ((∃ e, parser.machine.Yields source (.error (.syntaxError e))) ↔
            (draft.operators node).Meets (rowValues leaf row)) := by
  obtain ⟨grammar, finish⟩ := expressions.exists_finish
  have finished := GrammarDraft.finished_of_finish finish
  have ofGrammar : grammar.Declared := ⟨draft, declared, finish⟩
  have tables := (expressions.isRanked finished expressions.precedenceOf_eq).exists_table ofGrammar.wellFormed
  refine ⟨grammar, finish, tables, fun compiles options => ?_, ?_⟩
  · obtain ⟨lexer, made⟩ := Grammar.exists_lexer compiles
    obtain ⟨table, built⟩ := tables options.mergeCores
    exact Grammar.exists_toParser made built
  intro options parser compiled source first last row isOperand isRow atEnd tokens
  have levels := declared.levelled.associativity_eq
  have agree : ∀ o ∈ operators, ∀ o' ∈ operators, (draft.rank o).level = (draft.rank o').level →
      (draft.rank o).associativity = (draft.rank o').associativity := fun o ho o' ho' =>
    levels o _ o' _ (expressions.precedenceOf_eq o ho) (expressions.precedenceOf_eq o' ho')
  have yields := Reads.yields (expressions.evaluates declared finish compiled) atEnd agree isOperand isRow tokens
  change match (draft.operators node).climb (leaf [first.value]) (rowValues leaf row) with
    | some v => _
    | none => _ at yields
  rw [← Operators.climb_eq_none_iff (leaf [first.value])]
  cases climbs : (draft.operators node).climb (leaf [first.value]) (rowValues leaf row) with
  | some v =>
    rw [climbs] at yields
    refine ⟨fun w => ⟨fun h => ?_, fun same => ?_⟩, iff_of_false (fun ⟨e, h⟩ => ?_) nofun⟩
    · cases yields.unique h
      rfl
    · cases same
      exact yields
    · cases yields.unique h
  | none =>
    rw [climbs] at yields
    obtain ⟨e, yields⟩ := yields
    refine ⟨fun w => iff_of_false (fun h => ?_) nofun, iff_of_true ⟨e, yields⟩ rfl⟩
    cases yields.unique h

end Draft

/-! ## Arithmetic -/

namespace arithmetic

/-- The value of a number. -/
def leaf (values : List Nat) : Nat := values.headD 0

/-- The values of comparisons, differences and powers. -/
def node (o : Nat) (values : List Nat) : Nat :=
  let left := values.getD 0 0
  let right := values.getD 2 0
  if o = 3 then if left < right then 1 else 0
  else if o = 4 then left - right
  else left ^ right

/-- The draft: comparisons do not group, differences group to the left, and powers bind the most tightly and group to
the right. -/
def draft : GrammarDraft Nat :=
  let draft := ((({} : GrammarDraft Nat).literal "n").1.literal "<").1
  let draft := ((draft.literal "-").1.literal "^").1
  let draft := ((draft.group .nonAssoc [3]).group .left [4]).group .right [5]
  let draft := (draft.nonTerminal "e").1
  let draft := (draft.production 0 [.literal "n"] (.ofValues leaf)).1
  let draft := (draft.production 0 [.nonTerminal 0, .literal "<", .nonTerminal 0] (.ofValues (node 3))).1
  let draft := (draft.production 0 [.nonTerminal 0, .literal "-", .nonTerminal 0] (.ofValues (node 4))).1
  let draft := (draft.production 0 [.nonTerminal 0, .literal "^", .nonTerminal 0] (.ofValues (node 5))).1
  { draft with start := some 0 }

theorem declared : draft.Declared :=
  .start (.production (.production (.production (.production (.nonTerminal (.group (.group (.group (.literal (.literal
    (.literal (.literal .empty _) _) _) _) _ _) _ _) _ _) _) _ _ _) _ _ _) _ _ _) _ _ _) _

theorem isExpressions : draft.IsExpressions 2 [3, 4, 5] leaf node where
  nonTerminals := rfl
  start := rfl
  productions := .refl _
  unlent := rfl
  nodup := by decide
  error_lt := by decide
  operand_lt := by decide
  ranked o ho := by
    simp only [List.mem_cons, List.not_mem_nil, or_false] at ho
    rcases ho with rfl | rfl | rfl <;> exact ⟨_, rfl⟩

theorem isLiteral {grammar : Grammar Nat} (finish : draft.finish.run.value = .ok grammar) : grammar.IsLiteral := by
  cases finish
  exact ⟨rfl, by decide⟩

/-- The token of a number. -/
def number (value : Nat) : Token Nat := ⟨2, "n", ⟨0, 1⟩, value⟩

/-- The token of an operator. -/
def operator (o : Nat) : Token Nat := ⟨o, "", ⟨0, 1⟩, 0⟩

/-- Operators with the numbers behind them. -/
def row (links : List (Nat × Nat)) : List (Token Nat × Token Nat) :=
  links.map fun link => (operator link.1, number link.2)

/-- A number with a row behind it, and the end of the input. -/
def source (first : Nat) (links : List (Nat × Nat)) : TokenStream Nat :=
  .ofList ((number first :: rowTokens (row links)).map .ok)

theorem begins_source (first : Nat) (links : List (Nat × Nat)) : (source first links).Begins
    (number first :: rowTokens (row links) ++ [⟨endTerminal, "", ⟨0, 0⟩, default⟩]) := by
  intro i token hi
  change List.getD _ i _ = _
  rw [List.getD_eq_getElem?_getD, List.getElem?_map]
  rw [List.getElem?_append] at hi
  split at hi
  · rw [hi]
    rfl
  · rename_i behind
    rw [List.getElem?_eq_none (Nat.le_of_not_lt behind)]
    exact congrArg Except.ok (List.mem_singleton.mp (List.mem_of_getElem? hi)).symm

theorem isRow_row {links : List (Nat × Nat)} (known : ∀ link ∈ links, link.1 ∈ [3, 4, 5]) :
    IsRow 2 [3, 4, 5] (row links) :=
  List.forall_mem_map.mpr fun link hl => ⟨known link hl, rfl⟩

end arithmetic

/-- The difference 9 - 4 - 2 ^ 1 ^ 5 is 3, and 1 < 4 < 2 is a syntax error. -/
theorem parse_climbs_arithmetic : ∃ (grammar : Grammar Nat) (parser : Parser Nat),
    arithmetic.draft.finish.run.value = .ok grammar ∧ (grammar.toParser {}).run.value = .ok parser ∧
      parser.machine.Yields (arithmetic.source 9 [(4, 4), (4, 2), (5, 1), (5, 5)]) (.ok 3) ∧
      ∃ e, parser.machine.Yields (arithmetic.source 1 [(3, 4), (3, 2)]) (.error (.syntaxError e)) := by
  obtain ⟨grammar, finish, -, compiles, climbs⟩ := parse_climbs arithmetic.declared arithmetic.isExpressions
  obtain ⟨parser, compiled⟩ := compiles (arithmetic.isLiteral finish).compiles {}
  have difference := climbs {} parser compiled _ _ _ _ rfl (arithmetic.isRow_row (by decide)) rfl
    (arithmetic.begins_source 9 [(4, 4), (4, 2), (5, 1), (5, 5)])
  have comparisons := climbs {} parser compiled _ _ _ _ rfl (arithmetic.isRow_row (by decide)) rfl
    (arithmetic.begins_source 1 [(3, 4), (3, 2)])
  refine ⟨grammar, parser, finish, compiled, (difference.1 3).mpr (by cbv), comparisons.2.mpr ?_⟩
  exact (Operators.climb_eq_none_iff (arithmetic.leaf [1])).mp (by cbv)

end TableParsing
