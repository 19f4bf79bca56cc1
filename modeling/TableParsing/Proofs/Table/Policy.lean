import TableParsing.Proofs.Table.Reordering

/-! # The policy of the tables

What a state **asks for** in front of a terminal (`Grammar.Asks`) says what its table does there: an error if that is
nothing, the one thing if it is one, and what precedence says if it is a shift and a reduction (`Grammar.Obeys`).

All else is a conflict, and nothing is built (`Grammar.Refuses`).  What is reported then is a conflict of the first
state that has any (`exists_of_tableOf_eq_error`), and **the report is true**: what demands come to has nothing in it
but these (`Grammar.ComesFrom`), so both sides of a conflict were asked for (`Grammar.Between`).  Which conflict of that
state it is depends on the order in which its demands come.  In `rivals` a shift and a reduction lack a precedence, and
yet two reductions in front of another terminal are reported, as these meet before. -/

namespace TableParsing

open Collection (State)

/-! ## Conflicts in a cell -/

/-- Whether what a cell holds is one of some demands. -/
inductive Cell.Within (among : Demand → Prop) : Cell → Prop
  | empty : Within among .empty
  | demand {d : Demand} (h : among d) : Within among (.demand d)
  | blocked {p : Nat} (h : among (.reduce p)) : Within among (.blocked p)

namespace Grammar
variable {α : Type} (grammar : Grammar α)

/-- The precedence with which a terminal is shifted. -/
def shiftPrecedence? (t : Nat) : Option Precedence := grammar.terminals[t]?.bind (·.precedence)

/-- The precedence with which a production is reduced. -/
def reducePrecedence? (p : Nat) : Option Precedence := grammar.productions[p]?.bind (·.precedence)

/-- Whether precedence does not speak of the shift of a terminal and a reduction. -/
def Undecided (t p : Nat) : Prop := grammar.shiftPrecedence? t = none ∨ grammar.reducePrecedence? p = none

/-- Whether the two sides of a conflict in a cell are among some demands and do not go together. -/
inductive Between (i t : Nat) (among : Demand → Prop) : Conflict → Prop
  | shiftReduce {target p : Nat} (shift : among (.shift target)) (reduce : among (.reduce p))
      (undecided : grammar.Undecided t p) : Between i t among (.shiftReduce i t p)
  | reduceReduce {d e : Demand} {blocked : Bool} (first : among d) (second : among e) (differ : d ≠ e) :
      Between i t among (.reduceReduce i t d e blocked)

/-- Whether what demands come to, a cell or a conflict, has nothing in it but some demands. -/
def ComesFrom (i t : Nat) (among : Demand → Prop) : Except Conflict Cell → Prop
  | .ok cell => cell.Within among
  | .error conflict => grammar.Between i t among conflict

variable {grammar} {i t target p : Nat} {cell : Cell} {conflict : Conflict} {new : Demand} {ds : List Demand}
  {among : Demand → Prop}

theorem settle?_eq : grammar.settle? t target p = (grammar.shiftPrecedence? t).bind fun shift =>
    (grammar.reducePrecedence? p).bind fun reduce => some (shift.decide reduce target p) := by
  simp only [settle?, shiftPrecedence?, reducePrecedence?, Option.bind_eq_bind, Option.bind_assoc, Option.pure_def]

theorem settle?_eq_none_iff : grammar.settle? t target p = none ↔ grammar.Undecided t p := by
  rw [settle?_eq, Undecided]
  cases grammar.shiftPrecedence? t <;> cases grammar.reducePrecedence? p <;> simp

theorem within_of_settle? (first : among (.shift target)) (second : among (.reduce p))
    (h : grammar.settle? t target p = some cell) : cell.Within among := by
  rcases cell_of_settle? h with rfl | repeats
  · exact .demand first
  · cases repeats with
    | demand => exact .demand second
    | blocked same =>
      cases same
      exact .blocked second

/-- **What a demand and a cell come to has nothing in it but the two.** -/
theorem comesFrom_meet (within : cell.Within among) (asked : among new) :
    grammar.ComesFrom i t among (grammar.meet i t cell new) := by
  rw [meet.eq_def]
  split
  · exact Cell.Within.demand asked
  · obtain - | - | first := within
    split
    · exact Cell.Within.blocked first
    · rename_i differ
      exact Between.reduceReduce first asked fun same => differ same.symm
  · obtain - | first := within
    split
    · rename_i settled
      exact within_of_settle? first asked settled
    · rename_i settled
      exact Between.shiftReduce first asked (settle?_eq_none_iff.mp settled)
  · obtain - | first := within
    split
    · rename_i settled
      exact within_of_settle? asked first settled
    · rename_i settled
      exact Between.shiftReduce asked first (settle?_eq_none_iff.mp settled)
  · obtain - | first := within
    split
    · exact Cell.Within.demand first
    · rename_i differ
      exact Between.reduceReduce first asked differ

theorem comesFrom_meetAll (within : cell.Within among) (asked : ∀ d ∈ ds, among d) :
    grammar.ComesFrom i t among (grammar.meetAll i t cell ds) := by
  induction ds generalizing cell with
  | nil => exact within
  | cons new ds ih =>
    obtain ⟨first, others⟩ := List.forall_mem_cons.mp asked
    have meets : grammar.ComesFrom i t among (grammar.meet i t cell new) := comesFrom_meet within first
    rw [meetAll]
    cases met : grammar.meet i t cell new with
    | ok next =>
      rw [met] at meets
      exact ih meets others
    | error conflict =>
      rw [met] at meets
      exact meets

/-! ## What states ask for -/

/-- What a state asks for in front of a terminal: to shift it, if it leads on, to reduce what is complete and may be
followed by it, and to accept at the end. -/
inductive Asks (grammar : Grammar α) (state : State) (t : Nat) : Demand → Prop
  | shift {target : Nat} (leads : state.transitions.lookup (.terminal t) = some target) :
      Asks grammar state t (.shift target)
  | reduce {p : Nat} {production : Production α} (hp : grammar.productions[p]? = some production)
      (allows : state.items.Allows ⟨p, production.symbols.length⟩ t) : Asks grammar state t (.reduce p)
  | accept (atEnd : t = endTerminal) (has : state.items.Has ⟨grammar.cfg.augmented, 1⟩) : Asks grammar state t .accept

variable {states : List State} {state : State} {d e : Demand}

section State
variable (automaton : grammar.cfg.IsAutomaton states) (hs : states[i]? = some state)
include automaton hs

theorem asks_iff : grammar.Asks state t d ↔ (t, d) ∈ grammar.cfg.demands state := by
  have sound := automaton.sound i state hs
  have fits := sound.isClosure.fits
  constructor
  · rintro (leads | ⟨hp, allows⟩ | ⟨rfl, has⟩)
    · exact Cfg.shift_mem_of_lookup leads
    · exact Cfg.reduce_mem_of_allows (getElem?_rules hp) allows
    · exact Cfg.accept_mem_of_has has
  · intro asked
    cases d with
    | shift target => exact .shift (lookup_of_shift sound.nodup asked)
    | reduce p =>
      obtain ⟨rule, hr, allows⟩ := (Cfg.reduce_mem_demands_iff_allows fits).mp asked
      have result : (grammar.cfg.resultOf? p).isSome :=
        Option.isSome_iff_exists.mpr ⟨_, Cfg.resultOf?_eq_some_iff.mpr ⟨rule, hr, rfl⟩⟩
      obtain ⟨production, hp⟩ := exists_production_of_resultOf? result
      cases hr.symm.trans (getElem?_rules hp)
      exact .reduce hp allows
    | accept =>
      obtain ⟨atEnd, has⟩ := (accept_mem_demands_iff_has fits).mp asked
      exact .accept atEnd has

/-- **A conflict in a cell is one between what its state asks for.** -/
theorem between_of_cellAt (h : grammar.cellAt i state t = .error conflict) :
    grammar.Between i t (grammar.Asks state t) conflict := by
  have comes : grammar.ComesFrom i t (grammar.Asks state t)
      (grammar.meetAll i t .empty (demandsOn t (grammar.cfg.demands state))) :=
    comesFrom_meetAll .empty fun d hd => (asks_iff automaton hs).mpr (mem_demandsOn.mp hd)
  rwa [meetAll_demandsOn (automaton.sound i state hs).nodup, h] at comes

/-- Without a transition a cell is filled only if one thing is asked for. -/
theorem eq_of_unled (filled : grammar.cellAt i state t = .ok cell)
    (unled : state.transitions.lookup (.terminal t) = none) (hd : grammar.Asks state t d)
    (he : grammar.Asks state t e) : d = e := by
  have competes {d : Demand} (hd : grammar.Asks state t d) : d ∈ grammar.cfg.competing state t := by
    refine Cfg.mem_competing_iff.mpr ⟨(asks_iff automaton hs).mp hd, ?_⟩
    rintro target rfl
    obtain ⟨leads⟩ := hd
    cases unled.symm.trans leads
  rw [cellAt, unled, cellOf_none, meetAll_empty_eq_ok_iff Cfg.shift_not_mem_competing] at filled
  rcases filled with ⟨none, -⟩ | ⟨other, -, -, same⟩
  · exact absurd (none ▸ competes hd) List.not_mem_nil
  · rw [same d (competes hd), same e (competes he)]

/-- Where the end is accepted, a cell is filled only if nothing else is asked for. -/
theorem eq_accept (filled : grammar.cellAt i state t = .ok cell) (accept : grammar.Asks state t .accept)
    (hd : grammar.Asks state t d) : d = .accept := by
  cases leads : state.transitions.lookup (.terminal t) with
  | none => exact eq_of_unled automaton hs filled leads hd accept
  | some target =>
    have competes : .accept ∈ grammar.cfg.competing state t :=
      Cfg.mem_competing_iff.mpr ⟨(asks_iff automaton hs).mp accept, nofun⟩
    rw [cellAt, leads, cellOf_some, meetAll_shift_eq_ok_iff Cfg.shift_not_mem_competing] at filled
    rcases filled with ⟨-, all⟩ | ⟨front, back, other, split, all, prevails, same⟩
    · cases all _ competes
    · rw [split, List.mem_append, List.mem_cons] at competes
      rcases competes with before | rfl | behind
      · cases all _ before
      · cases prevails
      · cases same _ behind
        cases prevails

/-- A shift and a reduction of which precedence does not speak are in conflict. -/
theorem cellAt_of_undecided (shift : grammar.Asks state t (.shift target)) (reduce : grammar.Asks state t (.reduce p))
    (only : ∀ d, grammar.Asks state t d → d = .shift target ∨ d = .reduce p) (undecided : grammar.Undecided t p) :
    grammar.cellAt i state t = .error (.shiftReduce i t p) := by
  obtain ⟨leads⟩ := shift
  have same : ∀ d ∈ grammar.cfg.competing state t, d = .reduce p := fun d hd =>
    (only d ((asks_iff automaton hs).mpr (Cfg.mem_competing_iff.mp hd).1)).resolve_left fun same =>
      Cfg.shift_not_mem_competing target (same ▸ hd)
  have competes : .reduce p ∈ grammar.cfg.competing state t :=
    Cfg.mem_competing_iff.mpr ⟨(asks_iff automaton hs).mp reduce, nofun⟩
  rw [cellAt, leads, cellOf_some]
  obtain ⟨first, others, split⟩ := List.exists_cons_of_ne_nil (List.ne_nil_of_mem competes)
  rw [split] at same ⊢
  cases same first List.mem_cons_self
  refine Except.bind_eq_error_iff.mpr (.inl ?_)
  rw [meet.eq_def]
  simp only [settle?_eq_none_iff.mpr undecided]

end State

/-! ## What tables do -/

/-- Whether a table does what is asked for, a reduction with the result and the length of its production. -/
def Does (grammar : Grammar α) (table : ParserTable) (i t : Nat) : Demand → Prop
  | .shift target => table.actions.get i t = .shift target
  | .reduce p => ∃ number production, table.actions.get i t = .reduce number ∧
      grammar.productions[p]? = some production ∧
        table.reductions[number]? = some ⟨p, production.result, production.symbols.length⟩
  | .accept => table.actions.get i t = .accept

/-- Whether a table does what precedence says of the shift of a terminal and a reduction. -/
structure Prefers (grammar : Grammar α) (table : ParserTable) (i t target p : Nat) (shift reduce : Precedence) :
    Prop where
  above : shift.level < reduce.level → grammar.Does table i t (.reduce p)
  below : reduce.level < shift.level → grammar.Does table i t (.shift target)
  left : reduce.level = shift.level → shift.associativity = .left → grammar.Does table i t (.reduce p)
  right : reduce.level = shift.level → shift.associativity = .right → grammar.Does table i t (.shift target)
  nonAssoc : reduce.level = shift.level → shift.associativity = .nonAssoc → table.actions.get i t = .error

/-- Whether a table does what a state asks for in front of a terminal. -/
structure Obeys (grammar : Grammar α) (table : ParserTable) (i : Nat) (state : State) (t : Nat) : Prop where
  /-- What nothing is asked for is an error. -/
  none : (∀ d, ¬grammar.Asks state t d) → table.actions.get i t = .error
  /-- What alone is asked for is done. -/
  alone : ∀ d, grammar.Asks state t d → (∀ e, grammar.Asks state t e → e = d) → grammar.Does table i t d
  /-- Between a shift and a reduction precedence decides. -/
  both : ∀ target p, grammar.Asks state t (.shift target) → grammar.Asks state t (.reduce p) →
    (∀ d, grammar.Asks state t d → d = .shift target ∨ d = .reduce p) → ∃ shift reduce,
      grammar.shiftPrecedence? t = some shift ∧ grammar.reducePrecedence? p = some reduce ∧
        grammar.Prefers table i t target p shift reduce
  /-- Where the end is accepted, it is, and nothing else is asked for. -/
  accept : grammar.Asks state t .accept →
    grammar.Does table i t .accept ∧ ∀ d, grammar.Asks state t d → d = .accept

section Tables
variable {table : ParserTable} (automaton : grammar.cfg.IsAutomaton states) (built : grammar.tableOf states = .ok table)
  (hs : states[i]? = some state) (bound : t < grammar.terminals.length)
include automaton built hs

theorem does_of_action (asked : grammar.Asks state t d)
    (action : table.actions.get i t = Cfg.actionOf (grammar.cfg.reductions states) (.demand d)) :
    grammar.Does table i t d := by
  cases d with
  | shift target => exact action
  | accept => exact action
  | reduce p =>
    obtain ⟨item, hm, rfl, complete, result, -⟩ := Cfg.reduce_mem_demands.mp ((asks_iff automaton hs).mp asked)
    obtain ⟨production, hp⟩ := exists_production_of_resultOf? result
    have reduces := Machine.reduces_ofGrammar built {} (List.mem_of_getElem? hs) hm complete hp
    exact ⟨_, production, action, hp, reduces.reduction⟩

include bound

/-- What a table does is what the cell says that its state's demands come to. -/
theorem get_of_cellAt (filled : grammar.cellAt i state t = .ok cell) :
    table.actions.get i t = Cfg.actionOf (grammar.cfg.reductions states) cell := by
  obtain ⟨cell', filled', action⟩ := get_eq_actionOf built hs (automaton.sound i state hs).nodup bound
  cases filled.symm.trans filled'
  exact action

theorem does_of_cellAt (asked : grammar.Asks state t d) (filled : grammar.cellAt i state t = .ok (.demand d)) :
    grammar.Does table i t d :=
  does_of_action automaton built hs asked (get_of_cellAt automaton built hs bound filled)

theorem prefers_of_cellAt {shift reduce : Precedence} (asked : grammar.Asks state t (.shift target))
    (asked' : grammar.Asks state t (.reduce p))
    (filled : grammar.cellAt i state t = .ok (shift.decide reduce target p)) :
    grammar.Prefers table i t target p shift reduce := by
  have shifts (h : shift.decide reduce target p = .demand (.shift target)) : grammar.Does table i t (.shift target) :=
    does_of_cellAt automaton built hs bound asked (h ▸ filled)
  have reduces (h : shift.decide reduce target p = .demand (.reduce p)) : grammar.Does table i t (.reduce p) :=
    does_of_cellAt automaton built hs bound asked' (h ▸ filled)
  constructor
  · intro above
    exact reduces (by rw [Precedence.decide, Nat.compare_eq_gt.mpr above])
  · intro below
    exact shifts (by rw [Precedence.decide, Nat.compare_eq_lt.mpr below])
  · intro level way
    exact reduces (by rw [Precedence.decide, Nat.compare_eq_eq.mpr level, way])
  · intro level way
    exact shifts (by rw [Precedence.decide, Nat.compare_eq_eq.mpr level, way])
  · intro level way
    rw [get_of_cellAt automaton built hs bound filled, Precedence.decide, Nat.compare_eq_eq.mpr level, way]
    rfl

/-- **A table does what its states ask for.** -/
theorem obeys_of_tableOf : grammar.Obeys table i state t := by
  have nodup := (automaton.sound i state hs).nodup
  obtain ⟨cell, filled, action⟩ := get_eq_actionOf built hs nodup bound
  have asks {d : Demand} : grammar.Asks state t d ↔ (t, d) ∈ grammar.cfg.demands state := asks_iff automaton hs
  have alone (d : Demand) (hd : grammar.Asks state t d) (only : ∀ e, grammar.Asks state t e → e = d) :
      grammar.Does table i t d :=
    does_of_cellAt automaton built hs bound hd (cellAt_of_only nodup (asks.mp hd) fun e he => only e (asks.mpr he))
  refine ⟨fun none => ?_, alone, fun target p shift reduce only => ?_, fun accept => ?_⟩
  · exact get_of_cellAt automaton built hs bound (cellAt_of_none fun e he => none e (asks.mpr he))
  · cases settled : grammar.settle? t target p with
    | none =>
      have fails := cellAt_of_undecided automaton hs shift reduce only (settle?_eq_none_iff.mp settled)
      cases filled.symm.trans fails
    | some cell =>
      have comes := cellAt_of_settled (i := i) nodup (asks.mp shift) (asks.mp reduce)
        (fun e he => only e (asks.mpr he)) settled
      rw [settle?_eq] at settled
      obtain ⟨s, first, settled⟩ := Option.bind_eq_some_iff.mp settled
      obtain ⟨r, second, settled⟩ := Option.bind_eq_some_iff.mp settled
      cases settled
      exact ⟨s, r, first, second, prefers_of_cellAt automaton built hs bound shift reduce comes⟩
  · have same : ∀ d, grammar.Asks state t d → d = .accept := fun d => eq_accept automaton hs filled accept
    exact ⟨alone .accept accept same, same⟩

end Tables

/-! ## What is reported -/

/-- Whether all cells of the states up to one are filled, but for that of a terminal in it. -/
def FilledBeside (grammar : Grammar α) (states : List State) (i t : Nat) : Prop :=
  ∀ j ≤ i, ∀ state, states[j]? = some state → ∀ u < grammar.terminals.length, (j, u) ≠ (i, t) →
    ∃ cell, grammar.cellAt j state u = .ok cell

section Reports
variable (automaton : grammar.cfg.IsAutomaton states)
include automaton

/-- **The conflict that is reported is one of the first state that has any.** -/
theorem exists_of_tableOf_eq_error (h : grammar.tableOf states = .error conflict) :
    ∃ i state t, states[i]? = some state ∧ t < grammar.terminals.length ∧
      grammar.cellAt i state t = .error conflict ∧ ∀ j < i, ∀ state, states[j]? = some state →
        ∀ u < grammar.terminals.length, ∃ cell, grammar.cellAt j state u = .ok cell := by
  rw [tableOf] at h
  obtain fails | ⟨rows, -, ⟨⟩⟩ := Except.bind_eq_error_iff.mp h
  have place {j : Nat} {state : State} (hs : states[j]? = some state) : states.zipIdx[j]? = some (state, j) := by
    rw [List.getElem?_zipIdx, hs, Option.map_some, Nat.zero_add]
  obtain ⟨i, ⟨state, k⟩, there, fails, first⟩ := Except.exists_of_mapM_eq_error fails
  obtain ⟨state', hs, same⟩ := Option.map_eq_some_iff.mp (List.getElem?_zipIdx.symm.trans there)
  cases same
  rw [Nat.zero_add] at fails
  obtain ⟨t, bound, fails⟩ := exists_of_fillRow_eq_error (automaton.sound i state hs).nodup fails
  refine ⟨i, state, t, hs, bound, fails, fun j before state hs => ?_⟩
  exact (exists_fillRow_iff (automaton.sound j state hs).nodup).mp (first j before _ (place hs))

/-- A table is not made of states with a conflict. -/
theorem exists_error_of_cellAt (hs : states[i]? = some state) (bound : t < grammar.terminals.length)
    (fails : grammar.cellAt i state t = .error conflict) : ∃ first, grammar.tableOf states = .error first := by
  cases built : grammar.tableOf states with
  | error first => exact ⟨first, rfl⟩
  | ok table =>
    obtain ⟨cell, filled, -⟩ := get_eq_actionOf built hs (automaton.sound i state hs).nodup bound
    cases filled.symm.trans fails

/-- **A conflict is reported if there is no other.** -/
theorem tableOf_eq_error_of_beside (hs : states[i]? = some state) (bound : t < grammar.terminals.length)
    (fails : grammar.cellAt i state t = .error conflict) (beside : grammar.FilledBeside states i t) :
    grammar.tableOf states = .error conflict := by
  obtain ⟨other, reported⟩ := exists_error_of_cellAt automaton hs bound fails
  obtain ⟨j, state', u, hs', bound', fails', first⟩ := exists_of_tableOf_eq_error automaton reported
  have early : j ≤ i := by
    by_contra late
    obtain ⟨cell, filled⟩ := first i (Nat.lt_of_not_le late) state hs t bound
    cases filled.symm.trans fails
  by_cases same : (j, u) = (i, t)
  · cases same
    cases hs.symm.trans hs'
    cases fails'.symm.trans fails
    exact reported
  · obtain ⟨cell, filled⟩ := beside j early state' hs' u bound' same
    cases filled.symm.trans fails'

omit automaton in
/-- A conflict of the first state is reported. -/
theorem tableOf_eq_error_of_first (hs : states[0]? = some state) (fails : grammar.fillRow 0 state = .error conflict) :
    grammar.tableOf states = .error conflict := by
  cases states with
  | nil => cases hs
  | cons first others =>
    cases hs
    rw [tableOf, List.zipIdx_cons, List.mapM_cons]
    exact Except.bind_eq_error_iff.mpr (.inl (Except.bind_eq_error_iff.mpr (.inl fails)))

end Reports

/-! ## What is built -/

/-- Whether nothing is built where the demands of a state do not go together, and they are reported if all else does. -/
structure Refuses (grammar : Grammar α) (options : ParserOptions) (i : Nat) (state : State) (t : Nat) : Prop where
  /-- The end is accepted alone. -/
  accept : grammar.Asks state t .accept → ∀ d, grammar.Asks state t d → d ≠ .accept →
    ∃ error, (grammar.buildTable options).run.value = .error error
  /-- A shift and a reduction need precedence. -/
  both : ∀ target p, grammar.Asks state t (.shift target) → grammar.Asks state t (.reduce p) →
    (∀ d, grammar.Asks state t d → d = .shift target ∨ d = .reduce p) → grammar.Undecided t p →
      (∃ error, (grammar.buildTable options).run.value = .error error) ∧
        (grammar.FilledBeside (grammar.cfg.collection options.mergeCores) i t →
          (grammar.buildTable options).run.value = .error (grammar.conflictError (.shiftReduce i t p)))
  /-- Without a transition there is one thing to do. -/
  unled : state.transitions.lookup (.terminal t) = none → ∀ d e, grammar.Asks state t d → grammar.Asks state t e →
    d ≠ e → (∃ error, (grammar.buildTable options).run.value = .error error) ∧
      (grammar.FilledBeside (grammar.cfg.collection options.mergeCores) i t → ∃ first second,
        grammar.Asks state t first ∧ grammar.Asks state t second ∧ first ≠ second ∧
          (grammar.buildTable options).run.value =
            .error (grammar.conflictError (.reduceReduce i t first second false)))

section Built
variable {options : ParserOptions}

theorem value_of_tableOf (h : grammar.tableOf (grammar.cfg.collection options.mergeCores) = .error conflict) :
    (grammar.buildTable options).run.value = .error (grammar.conflictError conflict) := by
  rw [value_buildTable, table, h]
  rfl

variable (automaton : grammar.cfg.IsAutomaton (grammar.cfg.collection options.mergeCores))
  (hs : (grammar.cfg.collection options.mergeCores)[i]? = some state) (bound : t < grammar.terminals.length)
include automaton hs bound

theorem refused_of_cellAt (fails : grammar.cellAt i state t = .error conflict) :
    (∃ error, (grammar.buildTable options).run.value = .error error) ∧
      (grammar.FilledBeside (grammar.cfg.collection options.mergeCores) i t →
        (grammar.buildTable options).run.value = .error (grammar.conflictError conflict)) := by
  obtain ⟨first, reported⟩ := exists_error_of_cellAt automaton hs bound fails
  exact ⟨⟨_, value_of_tableOf reported⟩,
    fun beside => value_of_tableOf (tableOf_eq_error_of_beside automaton hs bound fails beside)⟩

/-- **Nothing is built where demands do not go together.** -/
theorem refuses : grammar.Refuses options i state t := by
  refine ⟨fun accept d hd differs => ?_, fun target p shift reduce only undecided => ?_,
    fun unled d e hd he differ => ?_⟩
  · cases filled : grammar.cellAt i state t with
    | ok cell => exact absurd (eq_accept automaton hs filled accept hd) differs
    | error conflict => exact (refused_of_cellAt automaton hs bound filled).1
  · exact refused_of_cellAt automaton hs bound (cellAt_of_undecided automaton hs shift reduce only undecided)
  · cases filled : grammar.cellAt i state t with
    | ok cell => exact absurd (eq_of_unled automaton hs filled unled hd he) differ
    | error conflict =>
      obtain ⟨fails, reported⟩ := refused_of_cellAt automaton hs bound filled
      refine ⟨fails, fun beside => ?_⟩
      -- nothing is shifted, so there is no shift in the conflict
      obtain ⟨⟨leads⟩, -, -⟩ | ⟨first, second, differ⟩ := between_of_cellAt automaton hs filled
      · cases unled.symm.trans leads
      · exact ⟨_, _, first, second, differ, reported beside⟩

end Built

end Grammar

variable {α : Type}

/-- **The tables follow the policy.**  Where a table is built, it does what the states ask for and precedence says.
Where demands do not go together, none is built, and they are reported if there is no other conflict in that state or
an earlier one.  A report is true: the state asks for both sides of the conflict, and no earlier state has any. -/
theorem build_follows_policy {grammar : Grammar α} (declared : grammar.Declared) (options : ParserOptions) :
    (∀ (i : Nat) state, (grammar.cfg.collection options.mergeCores)[i]? = some state →
      ∀ t < grammar.terminals.length,
        (∀ table, (grammar.buildTable options).run.value = .ok table → grammar.Obeys table i state t) ∧
          grammar.Refuses options i state t) ∧
    ∀ error, (grammar.buildTable options).run.value = .error error → ∃ i state t conflict,
      (grammar.cfg.collection options.mergeCores)[i]? = some state ∧ t < grammar.terminals.length ∧
        error = grammar.conflictError conflict ∧ grammar.Between i t (grammar.Asks state t) conflict ∧
          ∀ j < i, ∀ state, (grammar.cfg.collection options.mergeCores)[j]? = some state →
            ∀ u < grammar.terminals.length, ∃ cell, grammar.cellAt j state u = .ok cell := by
  have automaton := Cfg.isAutomaton_collection declared.wellFormed options.mergeCores
  refine ⟨fun i state hs t bound => ⟨fun table built => ?_, Grammar.refuses automaton hs bound⟩, fun error failed => ?_⟩
  · exact Grammar.obeys_of_tableOf automaton (Grammar.table_of_buildTable built) hs bound
  · rw [Grammar.value_buildTable] at failed
    cases reported : grammar.table options.mergeCores with
    | ok table =>
      rw [reported] at failed
      cases failed
    | error conflict =>
      rw [reported] at failed
      cases failed
      obtain ⟨i, state, t, hs, bound, fails, first⟩ := Grammar.exists_of_tableOf_eq_error automaton reported
      exact ⟨i, state, t, conflict, hs, bound, rfl, Grammar.between_of_cellAt automaton hs fails, first⟩

theorem build_follows_policy_crossing : (crossing (crossing.pair ++ crossing.others 3 1)).Declared ∧
    ∃ table, ((crossing (crossing.pair ++ crossing.others 3 1)).buildTable {}).run.value = .ok table ∧
      ∀ (i : Nat) state, ((crossing (crossing.pair ++ crossing.others 3 1)).cfg.collection true)[i]? = some state →
        ∀ t < 5, (crossing (crossing.pair ++ crossing.others 3 1)).Obeys table i state t := by
  obtain ⟨table, made⟩ := crossing.exists_table true
  have built : ((crossing (crossing.pair ++ crossing.others 3 1)).buildTable {}).run.value = .ok table := by
    rw [Grammar.value_buildTable, made]
    rfl
  exact ⟨crossing.declared, table, built, fun i state hs t bound =>
    ((build_follows_policy crossing.declared {}).1 i state hs t bound).1 table built⟩

/-! ## Two conflicts in one state -/

/-- The grammar of the texts x, ax, ay and by, in which a and b are empty and nothing has a precedence. -/
def rivals : Grammar Unit where
  terminals := [⟨"$end", .reserved, none⟩, ⟨"error", .reserved, none⟩, ⟨"y", .literal "y", none⟩,
    ⟨"x", .literal "x", none⟩]
  nonTerminals := ["s", "a", "b"]
  productions := [⟨0, [.nonTerminal 1, .terminal 3], .ofValues fun _ => (), none⟩,
    ⟨0, [.terminal 3], .ofValues fun _ => (), none⟩,
    ⟨0, [.nonTerminal 1, .terminal 2], .ofValues fun _ => (), none⟩,
    ⟨0, [.nonTerminal 2, .terminal 2], .ofValues fun _ => (), none⟩,
    ⟨1, [], .ofValues fun _ => (), none⟩, ⟨2, [], .ofValues fun _ => (), none⟩]
  start := 0
  ignored := []
  lexerOptions := {}

namespace rivals

/-- The draft that the grammar is finished from. -/
def draft : GrammarDraft Unit :=
  let draft := (({} : GrammarDraft Unit).literal "y").1.literal "x" |>.1
  let draft := ((draft.nonTerminal "s").1.nonTerminal "a").1.nonTerminal "b" |>.1
  let draft := (draft.production 0 [.nonTerminal 1, .literal "x"] (.ofValues fun _ => ())).1
  let draft := (draft.production 0 [.literal "x"] (.ofValues fun _ => ())).1
  let draft := (draft.production 0 [.nonTerminal 1, .literal "y"] (.ofValues fun _ => ())).1
  let draft := (draft.production 0 [.nonTerminal 2, .literal "y"] (.ofValues fun _ => ())).1
  let draft := (draft.production 1 [] (.ofValues fun _ => ())).1
  let draft := (draft.production 2 [] (.ofValues fun _ => ())).1
  { draft with start := some 0 }

theorem declared : rivals.Declared :=
  ⟨draft, .start (.production (.production (.production (.production (.production (.production
    (.nonTerminal (.nonTerminal (.nonTerminal (.literal (.literal .empty _) _) _) _) _) _ _ _) _ _ _) _ _ _) _ _ _)
    _ _ _) _ _ _) _, rfl⟩

section First
variable {mergeCores : Bool} {state : State} (hs : (rivals.cfg.collection mergeCores)[0]? = some state)
include hs

/-- What the items of the first state ask for, the latest empty production first. -/
theorem itemDemands_first :
    state.items.items.flatMap rivals.cfg.itemDemands = [(2, .reduce 5), (2, .reduce 4), (3, .reduce 4)] := by
  rw [Cfg.items_first declared.wellFormed hs, Cfg.items_closure, Cfg.items_startKernel]
  decide

/-- What stands behind the dots of the first state. -/
theorem nextSymbols_first : state.items.items.filterMap (fun item => rivals.cfg.nextSymbol? item.core) =
    [.nonTerminal 0, .nonTerminal 1, .terminal 3, .nonTerminal 1, .nonTerminal 2] := by
  rw [Cfg.items_first declared.wellFormed hs, Cfg.items_closure, Cfg.items_startKernel]
  decide

/-- The letter x leads on from the first state, the letter y does not. -/
theorem exists_lookup_iff {symbol : Symbol} : (∃ target, state.transitions.lookup symbol = some target) ↔
    symbol ∈ [.nonTerminal 0, .nonTerminal 1, .terminal 3, .nonTerminal 1, .nonTerminal 2] := by
  have automaton := Cfg.isAutomaton_collection declared.wellFormed mergeCores
  rw [← nextSymbols_first hs, List.mem_filterMap]
  constructor
  · rintro ⟨target, leads⟩
    obtain ⟨next, hnext, cores⟩ := automaton.advances 0 state hs _ _ leads
    obtain ⟨core, hc⟩ := automaton.exists_core hnext
    obtain ⟨old, hold, behind, -⟩ := cores core hc
    obtain ⟨item, hm, rfl⟩ := state.items.has_iff.mp hold
    exact ⟨item, hm, behind⟩
  · rintro ⟨item, hm, behind⟩
    obtain ⟨target, -, leads, -⟩ := automaton.leads 0 state hs item hm _ behind
    exact ⟨target, leads⟩

/-- In front of y two reductions meet before anything else is in conflict. -/
theorem fillRow_first : rivals.fillRow 0 state = .error (.reduceReduce 0 2 (.reduce 5) (.reduce 4) false) := by
  have automaton := Cfg.isAutomaton_collection declared.wellFormed mergeCores
  have nodup := (automaton.sound 0 state hs).nodup
  -- the shifts come first and leave the cell empty
  obtain ⟨cells, shifted⟩ : ∃ cells, rivals.fillFrom 0 (Array.replicate 4 .empty)
      (state.transitions.filterMap Cfg.shiftDemand?) = .ok cells := by
    refine Grammar.exists_fillFrom_iff.mpr fun t _ => ?_
    rw [Grammar.getD_replicate_empty, Cfg.demandsOn_filterMap_shiftDemand? nodup]
    cases state.transitions.lookup (.terminal t) <;> exact ⟨_, rfl⟩
  have unled : state.transitions.lookup (.terminal 2) = none :=
    Option.eq_none_iff_forall_ne_some.mpr fun target leads =>
      absurd ((exists_lookup_iff hs).mp ⟨target, leads⟩) (by decide)
  have empty : cells.getD 2 .empty = .empty := by
    have cell := Grammar.meetAll_of_fillFrom shifted (t := 2) (by decide)
    rw [Grammar.getD_replicate_empty, Cfg.demandsOn_filterMap_shiftDemand? nodup, unled] at cell
    exact (Except.ok.inj cell).symm
  have inside : 2 < cells.size := by
    rw [Grammar.size_fillFrom shifted]
    decide
  refine Except.bind_eq_error_iff.mpr (.inl ?_)
  rw [Cfg.demands, Grammar.fillFrom_append, show rivals.terminals.length = 4 from rfl, shifted, itemDemands_first hs]
  change rivals.fillFrom 0 cells _ = _
  refine Except.bind_eq_error_iff.mpr (.inr ⟨.demand (.reduce 5), by rw [empty]; rfl, ?_⟩)
  refine Except.bind_eq_error_iff.mpr (.inl ?_)
  rw [Grammar.getD_setIfInBounds, if_pos ⟨rfl, inside⟩]
  rfl

end First

end rivals

/-- **A conflict may be reported in another's place.**  In the first state of `rivals` the letter x may be shifted and
one production reduced in front of it, without a precedence, but it is the two reductions in front of y that are
reported. -/
theorem report_is_first_rivals : rivals.Declared ∧ (∃ state target, (rivals.cfg.collection true)[0]? = some state ∧
      rivals.Asks state 3 (.shift target) ∧ rivals.Asks state 3 (.reduce 4) ∧
        ∀ d, rivals.Asks state 3 d → d = .shift target ∨ d = .reduce 4) ∧
    rivals.shiftPrecedence? 3 = none ∧
    (rivals.buildTable {}).run.value = .error (.reduceReduce 0 "y" "a -> ε" "b -> ε") := by
  have automaton := Cfg.isAutomaton_collection rivals.declared.wellFormed true
  obtain ⟨state, hs, -⟩ := automaton.start
  have asks {d : Demand} : rivals.Asks state 3 d ↔ (3, d) ∈ rivals.cfg.demands state := Grammar.asks_iff automaton hs
  have competing : rivals.cfg.competing state 3 = [.reduce 4] := by
    rw [Cfg.competing, rivals.itemDemands_first hs]
    rfl
  obtain ⟨target, leads⟩ := (rivals.exists_lookup_iff hs).mpr (by decide : .terminal 3 ∈ _)
  refine ⟨rivals.declared, ⟨state, target, hs, .shift leads, ?_, fun d hd => ?_⟩, rfl, ?_⟩
  · exact asks.mpr (Cfg.mem_competing_iff.mp (competing ▸ List.mem_cons_self)).1
  · by_cases shift : ∃ next, d = .shift next
    · obtain ⟨next, rfl⟩ := shift
      obtain ⟨leads'⟩ := hd
      cases leads.symm.trans leads'
      exact .inl rfl
    · have competes := Cfg.mem_competing_iff.mpr ⟨asks.mp hd, fun next same => shift ⟨next, same⟩⟩
      rw [competing] at competes
      exact .inr (List.mem_singleton.mp competes)
  · have failed : rivals.tableOf (rivals.cfg.collection ({} : ParserOptions).mergeCores) = .error _ :=
      Grammar.tableOf_eq_error_of_first hs (rivals.fillRow_first hs)
    rw [Grammar.value_of_tableOf failed]
    decide

end TableParsing
