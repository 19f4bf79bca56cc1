import TableParsing.Proofs.Lr.Checked
import TableParsing.Proofs.Table.Policy

/-! # Cells, targets and rules that have a place

The tables are filled state by state.  A demand goes to the cell of its terminal, a transition on a non-terminal to the
target of that non-terminal.  A production gets the number of a **rule** when it is complete for the first time, and from
then on cells name the rule; where a shift and a reduction meet, the rule is looked up to find the production, and with it
the precedence.  Below is the filling once more, made so that **it has no result as soon as a terminal has no cell, a
non-terminal no target, or a rule no production**.

In a grammar whose symbols are all there it comes to the same tables, or to the same conflict (`Grammar.table?_eq`). -/

namespace TableParsing

open Collection (State)

/-! ## Results that are reached -/

/-- Whether a computation that can fall out of an array comes to what represents a result, or to a conflict. -/
def Attains {ε β γ : Type} (represent : γ → β) (x : ExceptT ε Option β) (y : Except ε γ) : Prop :=
  x.run = some (y.map represent)

namespace Attains
variable {ε β γ β' γ' : Type} {f : γ → β} {f' : γ' → β'} {x : ExceptT ε Option β} {y : Except ε γ}

theorem pure (c : γ) : Attains f (Pure.pure (f c) : ExceptT ε Option β) (.ok c) := rfl

theorem bind {k : β → ExceptT ε Option β'} {g : γ → Except ε γ'} (h : Attains f x y)
    (then' : ∀ c, y = .ok c → Attains f' (k (f c)) (g c)) : Attains f' (x >>= k) (y >>= g) := by
  have run : (x >>= k).run = x.run.bind fun y => match y with
    | .ok b => (k b).run
    | .error e => some (.error e) := rfl
  rw [Attains, run, h, Option.bind_some]
  cases y with
  | ok c => exact then' c rfl
  | error e => rfl

/-- What is represented in another way by a step that cannot fail. -/
theorem bind_pure {k : β → β'} {f' : γ → β'} (h : Attains f x y) (same : ∀ c, y = .ok c → k (f c) = f' c) :
    Attains f' (x >>= fun b => Pure.pure (k b)) y := by
  have whole : y = y >>= .ok := by cases y <;> rfl
  rw [whole]
  exact h.bind fun c hc => same c hc ▸ .pure c

/-- A place that is there is found. -/
theorem lift_bind {o : Option β'} {b : β'} {k : β' → ExceptT ε Option β} (h : o = some b)
    (then' : Attains f (k b) y) : Attains f ((liftM o : ExceptT ε Option β') >>= k) y := by
  subst h
  exact then'

end Attains

/-! ## Rules for productions -/

/-- The demand in which a reduction goes by the number of its rule. -/
def Demand.number (number : Nat → Nat) : Demand → Demand
  | .reduce p => .reduce (number p)
  | demand => demand

/-- The cell in which a reduction goes by the number of its rule. -/
def Cell.number (number : Nat → Nat) : Cell → Cell
  | .empty => .empty
  | .demand d => .demand (d.number number)
  | .blocked p => .blocked (number p)

/-- The action for a cell in which reductions go by the numbers of their rules. -/
def Cell.action : Cell → Action
  | .demand (.shift target) => .shift target
  | .demand (.reduce rule) => .reduce rule
  | .demand .accept => .accept
  | .empty | .blocked _ => .error

theorem action_number (rules : Numbering Nat) (cell : Cell) :
    (cell.number rules.numberOf).action = Cfg.actionOf rules cell := by
  cases cell with
  | demand d => cases d <;> rfl
  | empty | blocked => rfl

/-- The demand in which the production of a rule is looked up. -/
def Demand.lookUp? (rules : Numbering Nat) : Demand → Option Demand
  | .reduce rule => do return .reduce (← rules.elements[rule]?)
  | demand => some demand

/-- Whether a demand reduces no production without a rule. -/
def Demand.HasRule (rules : Numbering Nat) : Demand → Prop
  | .reduce p => p ∈ rules.toList
  | _ => True

/-- The production that an item is the whole right-hand side of. -/
def Cfg.completedOf (cfg : Cfg) (item : Item) : List Nat :=
  if cfg.isComplete item.core && (cfg.resultOf? item.core.production).isSome then [item.core.production] else []

theorem Cfg.completed_eq (cfg : Cfg) (state : State) : cfg.completed state = state.items.items.flatMap cfg.completedOf := by
  rw [completed]
  induction state.items.items with
  | nil => rfl
  | cons item items ih =>
    rw [List.flatMap_cons, ← ih, completedOf, List.filter_cons]
    split <;> rfl

/-! ## Filling -/

namespace Grammar
variable {α : Type} (grammar : Grammar α)

/-- The cell for a shift of a terminal and the reduction by a rule, if both sides have a precedence. -/
def settleRule? (terminal target production rule : Nat) : Option Cell := do
  let shift ← grammar.shiftPrecedence? terminal
  let reduce ← grammar.reducePrecedence? production
  return shift.decide reduce target rule

/-- The cell for a shift of a terminal and the reduction by a rule. -/
def settleAt? (rules : Numbering Nat) (state terminal target rule : Nat) : ExceptT Conflict Option Cell := do
  let production ← (rules.elements[rule]? : Option Nat)
  match grammar.settleRule? terminal target production rule with
  | some cell => return cell
  | none => throw (.shiftReduce state terminal production)

/-- The conflict of two demands. -/
def refuse? (rules : Numbering Nat) (state terminal : Nat) (first second : Demand) (blocked : Bool) :
    ExceptT Conflict Option Cell := do
  throw (.reduceReduce state terminal (← first.lookUp? rules) (← second.lookUp? rules) blocked)

/-- The cell of a terminal in a state after one more demand. -/
def meet? (rules : Numbering Nat) (state terminal : Nat) (cell : Cell) (new : Demand) : ExceptT Conflict Option Cell :=
  match cell, new with
  | .empty, new => return .demand new
  | .blocked rule, new =>
    if new = .reduce rule then return .blocked rule
    else refuse? rules state terminal (.reduce rule) new true
  | .demand (.shift target), .reduce rule
  | .demand (.reduce rule), .shift target => grammar.settleAt? rules state terminal target rule
  | .demand old, new =>
    if old = new then return .demand old
    else refuse? rules state terminal old new false

/-- The cells of a state after one more demand. -/
def enter? (rules : Numbering Nat) (state : Nat) (cells : Array Cell) (terminal : Nat) (new : Demand) :
    ExceptT Conflict Option (Array Cell) := do
  let cell ← grammar.meet? rules state terminal (← (cells[terminal]? : Option Cell)) new
  modifyAt? cells terminal fun _ => cell

/-- The cells and the targets of a state after one of its transitions. -/
def enterTransition? (rules : Numbering Nat) (state : Nat) :
    Array Cell × Array (Option Nat) → Symbol × Nat → ExceptT Conflict Option (Array Cell × Array (Option Nat))
  | (cells, gotos), (.terminal t, target) => do return (← grammar.enter? rules state cells t (.shift target), gotos)
  | (cells, gotos), (.nonTerminal n, target) => do return (cells, ← modifyAt? gotos n fun _ => some target)

/-- The cells of a state and the rules after one of its items. -/
def enterItem? (state : Nat) :
    Array Cell × Numbering Nat → Item → ExceptT Conflict Option (Array Cell × Numbering Nat)
  | (cells, rules), item =>
    if grammar.cfg.isComplete item.core then
      match grammar.cfg.resultOf? item.core.production with
      | none => do return (← grammar.enter? rules state cells endTerminal .accept, rules)
      | some _ => do
        let rules := rules.insert item.core.production
        let rule := rules.numberOf item.core.production
        let cells ← item.lookahead.toList.foldlM
          (fun cells t => grammar.enter? rules state cells t (.reduce rule)) cells
        return (cells, rules)
    else return (cells, rules)

/-- The cells and the targets of a state, with the rules that are known then. -/
def enterState? (rules : Numbering Nat) (state : State) (index : Nat) :
    ExceptT Conflict Option ((List Cell × List (Option Nat)) × Numbering Nat) := do
  let cfg := grammar.cfg
  let (cells, gotos) ← state.transitions.foldlM (grammar.enterTransition? rules index)
    (Array.replicate cfg.terminalCount .empty, Array.replicate cfg.nonTerminalCount none)
  let (cells, rules) ← state.items.items.foldlM (grammar.enterItem? index) (cells, rules)
  return ((cells.toList, gotos.toList), rules)

/-- The cells and the targets of some states, with the rules that are known then. -/
def enterStates? : List (State × Nat) → Numbering Nat →
    ExceptT Conflict Option (List (List Cell × List (Option Nat)) × Numbering Nat)
  | [], rules => return ([], rules)
  | (state, index) :: states, rules => do
    let (row, rules) ← grammar.enterState? rules state index
    let (rows, rules) ← enterStates? states rules
    return (row :: rows, rules)

/-- The tables of the grammar, or the first conflict. -/
def table? (mergeCores : Bool) : ExceptT Conflict Option ParserTable := do
  let cfg := grammar.cfg
  let states ← cfg.collection? mergeCores
  let (rows, rules) ← grammar.enterStates? states.zipIdx .empty
  return {
    actions := .ofRows (rows.map fun row => row.1.map Cell.action) cfg.terminalCount
    gotos := .ofRows (rows.map (·.2)) cfg.nonTerminalCount
    reductions := rules.toList.map cfg.reductionOf
    stateCount := states.length }

end Grammar

/-! ## Rules that are found -/

section Rules
variable {rules all : Numbering Nat} (early : rules.toList <+: all.toList)
include early

theorem Demand.HasRule.mono {d : Demand} (h : d.HasRule rules) : d.HasRule all := by
  cases d with
  | reduce p => exact early.subset h
  | shift | accept => trivial

/-- What has a rule has the same rule when there are more. -/
theorem getElem?_rule {p : Nat} (h : p ∈ rules.toList) : rules.elements[all.numberOf p]? = some p := by
  have there := rules.getElem?_numberOf h
  rwa [all.numberOf_eq (Numbering.getElem?_of_prefix early there)]

theorem numberOf_rule {p : Nat} (h : p ∈ rules.toList) : rules.numberOf p = all.numberOf p :=
  rules.elements_inj (rules.getElem?_numberOf h) (getElem?_rule early h)

theorem lookUp?_number {d : Demand} (h : d.HasRule rules) : (d.number all.numberOf).lookUp? rules = some d := by
  cases d with
  | shift | accept => rfl
  | reduce p =>
    rw [Demand.number, Demand.lookUp?, getElem?_rule early h]
    rfl

/-- Different demands have different rules. -/
theorem number_inj {d e : Demand} (h : d.HasRule rules) (h' : e.HasRule rules) :
    d.number all.numberOf = e.number all.numberOf ↔ d = e := by
  refine ⟨fun same => ?_, congrArg _⟩
  have found := lookUp?_number early h
  rw [same, lookUp?_number early h'] at found
  exact (Option.some.inj found).symm

end Rules

namespace Grammar
variable {α : Type} {grammar : Grammar α} {rules all : Numbering Nat} {i t target p : Nat} {cell : Cell} {new : Demand}

theorem settleRule?_eq (number : Nat → Nat) : grammar.settleRule? t target p (number p) =
    (grammar.settle? t target p).map (Cell.number number) := by
  have decided (shift reduce : Precedence) : shift.decide reduce target (number p) =
      (shift.decide reduce target p).number number := by
    rw [Precedence.decide, Precedence.decide]
    split
    · rfl
    · rfl
    · split <;> rfl
  rw [settleRule?, settle?_eq]
  cases grammar.shiftPrecedence? t with
  | none => rfl
  | some shift =>
    cases grammar.reducePrecedence? p with
    | none => rfl
    | some reduce => exact congrArg some (decided shift reduce)

section Cells
variable (early : rules.toList <+: all.toList)
include early

theorem attains_settleAt? (hp : p ∈ rules.toList) :
    Attains (Cell.number all.numberOf) (grammar.settleAt? rules i t target (all.numberOf p))
      (match grammar.settle? t target p with
        | some cell => .ok cell
        | none => .error (.shiftReduce i t p)) := by
  refine .lift_bind (getElem?_rule early hp) ?_
  rw [settleRule?_eq]
  cases grammar.settle? t target p <;> rfl

theorem attains_refuse? {first second : Demand} (h : first.HasRule rules) (h' : second.HasRule rules) (blocked : Bool) :
    Attains (Cell.number all.numberOf)
      (refuse? rules i t (first.number all.numberOf) (second.number all.numberOf) blocked)
      (.error (.reduceReduce i t first second blocked)) :=
  .lift_bind (lookUp?_number early h) (.lift_bind (lookUp?_number early h') rfl)

/-- **A demand comes to the same, whatever reductions go by.** -/
theorem attains_meet? (within : cell.Within (Demand.HasRule rules)) (has : new.HasRule rules) :
    Attains (Cell.number all.numberOf)
      (grammar.meet? rules i t (cell.number all.numberOf) (new.number all.numberOf)) (grammar.meet i t cell new) := by
  -- where no precedence is asked, equal demands are kept and others refused
  have otherwise (old : Demand) (cell : Cell) (blocked : Bool) (h : old.HasRule rules) {same same' : Prop}
      [Decidable same] [Decidable same'] (iff : same' ↔ same) :
      Attains (Cell.number all.numberOf) (if same' then return cell.number all.numberOf
        else refuse? rules i t (old.number all.numberOf) (new.number all.numberOf) blocked)
      (if same then .ok cell else .error (.reduceReduce i t old new blocked)) := by
    by_cases equal : same
    · rw [if_pos equal, if_pos (iff.mpr equal)]
      exact .pure _
    · rw [if_neg equal, if_neg (mt iff.mp equal)]
      exact attains_refuse? early h has blocked
  cases within with
  | empty => exact .pure _
  | @blocked p hp => exact otherwise (.reduce p) (.blocked p) true hp (number_inj early has hp)
  | @demand old hd =>
    have alike := number_inj early hd has
    cases old with
    | shift target =>
      cases new with
      | reduce p => exact attains_settleAt? early has
      | shift | accept => exact otherwise _ (.demand (.shift target)) false hd alike
    | reduce p =>
      cases new with
      | shift target => exact attains_settleAt? early hd
      | reduce | accept => exact otherwise _ (.demand (.reduce p)) false hd alike
    | accept =>
      cases new with
      | shift | reduce | accept => exact otherwise _ (.demand .accept) false hd alike

end Cells

/-! ## Rows of cells -/

/-- The cells of a state after one more demand. -/
def enter (grammar : Grammar α) (state : Nat) (cells : Array Cell) (terminal : Nat) (new : Demand) :
    Except Conflict (Array Cell) := do
  return cells.setIfInBounds terminal (← grammar.meet state terminal (cells.getD terminal .empty) new)

theorem fillFrom_cons {cells : Array Cell} {demands : List (Nat × Demand)} :
    grammar.fillFrom i cells ((t, new) :: demands) =
      grammar.enter i cells t new >>= fun cells => grammar.fillFrom i cells demands := by
  rw [fillFrom, enter, bind_assoc]
  rfl

/-- Whether there is a cell for each terminal, and every reduction in the cells has a rule. -/
structure Filled (rules : Numbering Nat) (count : Nat) (cells : Array Cell) : Prop where
  size_eq : cells.size = count
  within : ∀ cell ∈ cells, cell.Within (Demand.HasRule rules)

section Rows
variable {cells cells' : Array Cell} {count : Nat} {demands : List (Nat × Demand)}

theorem filled_replicate : Filled rules count (Array.replicate count .empty) where
  size_eq := Array.size_replicate
  within _ h := (Array.mem_replicate.mp h).2 ▸ .empty

theorem Filled.getD (filled : Filled rules count cells) : (cells.getD t .empty).Within (Demand.HasRule rules) := by
  rw [Array.getD_eq_getD_getElem?]
  cases there : cells[t]? with
  | none => exact .empty
  | some cell => exact filled.within cell (Array.mem_of_getElem? there)

theorem Filled.enter (filled : Filled rules count cells) (has : new.HasRule rules)
    (entered : grammar.enter i cells t new = .ok cells') : Filled rules count cells' := by
  obtain ⟨cell, met, same⟩ := Except.bind_eq_ok_iff.mp entered
  cases same
  refine ⟨Array.size_setIfInBounds.trans filled.size_eq, fun other h => ?_⟩
  have comes : grammar.ComesFrom i t (Demand.HasRule rules) (grammar.meet i t (cells.getD t .empty) new) :=
    comesFrom_meet filled.getD has
  rw [met] at comes
  rcases Array.mem_or_eq_of_mem_setIfInBounds h with old | rfl
  · exact filled.within other old
  · exact comes

theorem Filled.fillFrom (filled : Filled rules count cells) (has : ∀ d ∈ demands, d.2.HasRule rules)
    (h : grammar.fillFrom i cells demands = .ok cells') : Filled rules count cells' := by
  induction demands generalizing cells with
  | nil =>
    cases h
    exact filled
  | cons first demands ih =>
    rw [fillFrom_cons] at h
    obtain ⟨next, entered, h⟩ := Except.bind_eq_ok_iff.mp h
    obtain ⟨here, others⟩ := List.forall_mem_cons.mp has
    exact ih (filled.enter here entered) others h

theorem Filled.mono {other : Numbering Nat} (more : rules.toList <+: other.toList) (filled : Filled rules count cells) :
    Filled other count cells where
  size_eq := filled.size_eq
  within cell h := by
    cases filled.within cell h with
    | empty => exact .empty
    | demand hd => exact .demand (Demand.HasRule.mono more hd)
    | blocked hp => exact .blocked (more.subset hp)

section Early
variable (early : rules.toList <+: all.toList) (filled : Filled rules count cells)
include early filled

/-- **A demand finds the cell of its terminal.** -/
theorem attains_enter? (bound : t < count) (has : new.HasRule rules) :
    Attains (Array.map (Cell.number all.numberOf))
      (grammar.enter? rules i (cells.map (Cell.number all.numberOf)) t (new.number all.numberOf))
      (grammar.enter i cells t new) := by
  have inside : t < cells.size := filled.size_eq.symm ▸ bound
  have there : (cells.map (Cell.number all.numberOf))[t]? = some ((cells.getD t .empty).number all.numberOf) := by
    rw [Array.getElem?_map, Array.getElem?_eq_getElem inside, ← Array.getElem_eq_getD (h := inside)]
    rfl
  refine .lift_bind there ((attains_meet? early filled.getD has).bind fun cell _ => ?_)
  rw [modifyAt?_eq (by rwa [Array.size_map])]
  have same : (cells.map (Cell.number all.numberOf)).modify t (fun _ => cell.number all.numberOf) =
      (cells.setIfInBounds t cell).map (Cell.number all.numberOf) := by
    refine Array.ext_getElem? fun u => ?_
    rw [Array.getElem?_modify, Array.getElem?_map, Array.getElem?_map, Array.getElem?_setIfInBounds]
    split
    · rename_i here
      subst here
      rw [Array.getElem?_eq_getElem inside]
      rfl
    · rfl
  rw [same]
  exact .pure _

/-- All demands find their cells. -/
theorem attains_fillFrom (bounds : ∀ d ∈ demands, d.1 < count) (has : ∀ d ∈ demands, d.2.HasRule rules) :
    Attains (Array.map (Cell.number all.numberOf))
      (demands.foldlM (fun cells d => grammar.enter? rules i cells d.1 (d.2.number all.numberOf))
        (cells.map (Cell.number all.numberOf)))
      (grammar.fillFrom i cells demands) := by
  induction demands generalizing cells with
  | nil => exact .pure cells
  | cons first demands ih =>
    obtain ⟨t, new⟩ := first
    obtain ⟨bound, otherBounds⟩ := List.forall_mem_cons.mp bounds
    obtain ⟨here, others⟩ := List.forall_mem_cons.mp has
    rw [List.foldlM_cons, fillFrom_cons]
    exact (attains_enter? early filled bound here).bind fun cells' entered =>
      ih (filled.enter here entered) otherBounds others

end Early
end Rows

/-! ## Transitions -/

/-- The targets after some transitions. -/
def targetsAfter (gotos : Array (Option Nat)) (transitions : List (Symbol × Nat)) : Array (Option Nat) :=
  transitions.foldl (fun gotos transition => match transition with
    | (.terminal _, _) => gotos
    | (.nonTerminal n, target) => gotos.modify n fun _ => some target) gotos

section Transitions
variable {transitions : List (Symbol × Nat)} {gotos : Array (Option Nat)} {cells : Array Cell} {count goals n : Nat}

theorem size_targetsAfter : (targetsAfter gotos transitions).size = gotos.size := by
  induction transitions generalizing gotos with
  | nil => rfl
  | cons transition transitions ih =>
    obtain ⟨symbol, target⟩ := transition
    refine ih.trans ?_
    cases symbol with
    | terminal t => rfl
    | nonTerminal n => exact Array.size_modify

/-- With one transition on each symbol, a target is where that transition leads. -/
theorem getElem?_targetsAfter (nodup : (transitions.map Prod.fst).Nodup) (inside : n < gotos.size) :
    (targetsAfter gotos transitions)[n]? =
      some ((transitions.lookup (.nonTerminal n)).or (gotos.getD n none)) := by
  induction transitions generalizing gotos with
  | nil => exact (Array.getElem?_eq_getElem inside).trans (congrArg some (Array.getElem_eq_getD none))
  | cons transition transitions ih =>
    obtain ⟨symbol, target⟩ := transition
    obtain ⟨new, others⟩ := List.nodup_cons.mp nodup
    rw [lookup_cons_if]
    cases symbol with
    | terminal t => exact ih others inside
    | nonTerminal m =>
      have inside' : n < (gotos.modify m fun _ => some target).size := Array.size_modify.symm ▸ inside
      have rest := ih others inside'
      refine rest.trans (congrArg some ?_)
      rw [Array.getD_eq_getD_getElem?, Array.getElem?_modify]
      by_cases same : n = m
      · subst same
        have none : transitions.lookup (.nonTerminal n) = none := Option.eq_none_iff_forall_ne_some.mpr
          fun _ leads => new (List.mem_map.mpr ⟨_, mem_of_lookup_eq_some leads, rfl⟩)
        rw [none, if_pos rfl, if_pos rfl, Array.getElem?_eq_getElem inside]
        rfl
      · rw [if_neg fun h => same h.symm, if_neg fun h => same (Symbol.nonTerminal.inj h), Array.getD_eq_getD_getElem?]

theorem targetsAfter_eq (nodup : (transitions.map Prod.fst).Nodup) :
    (targetsAfter (Array.replicate count none) transitions).toList =
      (List.range count).map fun n => transitions.lookup (.nonTerminal n) := by
  refine List.ext_getElem? fun n => ?_
  rw [Array.getElem?_toList, List.getElem?_map]
  by_cases inside : n < count
  · rw [getElem?_targetsAfter nodup (Array.size_replicate.symm ▸ inside), List.getElem?_range inside]
    simp [inside]
  · rw [Array.getElem?_eq_none (by rw [size_targetsAfter, Array.size_replicate]; omega),
      List.getElem?_eq_none (by rw [List.length_range]; omega)]
    rfl

/-- **The transitions of a state find their cells and targets.** -/
theorem attains_enterTransitions? (early : rules.toList <+: all.toList) (filled : Filled rules count cells)
    (terminals : ∀ t target, (.terminal t, target) ∈ transitions → t < count)
    (nonTerminals : ∀ n target, (.nonTerminal n, target) ∈ transitions → n < gotos.size) :
    Attains (fun cells => (cells.map (Cell.number all.numberOf), targetsAfter gotos transitions))
      (transitions.foldlM (grammar.enterTransition? rules i) (cells.map (Cell.number all.numberOf), gotos))
      (grammar.fillFrom i cells (transitions.filterMap Cfg.shiftDemand?)) := by
  induction transitions generalizing cells gotos with
  | nil => exact .pure cells
  | cons transition transitions ih =>
    obtain ⟨symbol, target⟩ := transition
    have terminals' : ∀ t target, (.terminal t, target) ∈ transitions → t < count :=
      fun t target h => terminals t target (List.mem_cons_of_mem _ h)
    have nonTerminals' : ∀ n target, (.nonTerminal n, target) ∈ transitions → n < gotos.size :=
      fun n target h => nonTerminals n target (List.mem_cons_of_mem _ h)
    rw [List.foldlM_cons]
    cases symbol with
    | terminal t =>
      have has : (Demand.shift target).HasRule rules := trivial
      have step : Attains (fun cells => (cells.map (Cell.number all.numberOf), gotos))
          (grammar.enterTransition? rules i (cells.map (Cell.number all.numberOf), gotos) (.terminal t, target))
          (grammar.enter i cells t (.shift target)) :=
        (attains_enter? early filled (terminals t target List.mem_cons_self) has).bind_pure fun _ _ => rfl
      have demands : ((.terminal t, target) :: transitions).filterMap Cfg.shiftDemand? =
          (t, .shift target) :: transitions.filterMap Cfg.shiftDemand? := rfl
      rw [demands, fillFrom_cons]
      exact step.bind fun cells' entered => ih (filled.enter has entered) terminals' nonTerminals'
    | nonTerminal n =>
      have inside := nonTerminals n target List.mem_cons_self
      have step : Attains (fun _ : Unit => (cells.map (Cell.number all.numberOf), gotos.modify n fun _ => some target))
          (grammar.enterTransition? rules i (cells.map (Cell.number all.numberOf), gotos) (.nonTerminal n, target))
          (.ok ()) := .lift_bind (modifyAt?_eq inside _) (.pure ())
      exact step.bind (g := fun _ => grammar.fillFrom i cells (transitions.filterMap Cfg.shiftDemand?)) fun _ _ =>
        ih filled terminals' fun n target h => Array.size_modify.symm ▸ nonTerminals' n target h

end Transitions

/-! ## Items -/

section Items
variable {cells : Array Cell} {count : Nat} {item : Item}

theorem hasRule_itemDemands {d : Nat × Demand} (h : d ∈ grammar.cfg.itemDemands item) :
    d.2.HasRule (rules.insertAll (grammar.cfg.completedOf item)) := by
  obtain ⟨complete, ⟨-, -, accept⟩ | ⟨result, -, reduce⟩⟩ := Cfg.mem_itemDemands.mp h
  · rw [accept]
    trivial
  · rw [reduce, Cfg.completedOf, complete, result]
    exact (rules.mem_insertAll).mpr (.inr List.mem_cons_self)

/-- **The demands of an item find their cells and their rule.** -/
theorem attains_enterItem? (early : (rules.insertAll (grammar.cfg.completedOf item)).toList <+: all.toList)
    (filled : Filled rules count cells) (ends : endTerminal < count)
    (lookaheads : ∀ t, item.lookahead.contains t → t < count) :
    Attains (fun cells => (cells.map (Cell.number all.numberOf), rules.insertAll (grammar.cfg.completedOf item)))
      (grammar.enterItem? i (cells.map (Cell.number all.numberOf), rules) item)
      (grammar.fillFrom i cells (grammar.cfg.itemDemands item)) := by
  rw [enterItem?, Cfg.itemDemands]
  rw [Cfg.completedOf] at early ⊢
  by_cases complete : grammar.cfg.isComplete item.core
  · simp only [complete, Bool.true_and, if_true] at early ⊢
    cases result : grammar.cfg.resultOf? item.core.production with
    | none =>
      simp only [result, Option.isSome_none] at early ⊢
      have has : Demand.accept.HasRule rules := trivial
      have single : grammar.fillFrom i cells [(endTerminal, .accept)] = grammar.enter i cells endTerminal .accept := by
        rw [fillFrom_cons]
        cases grammar.enter i cells endTerminal .accept <;> rfl
      rw [single]
      exact (attains_enter? early filled ends has).bind_pure fun _ _ => rfl
    | some n =>
      simp only [result, Option.isSome_some] at early ⊢
      have early : (rules.insert item.core.production).toList <+: all.toList := early
      have filled := filled.mono (rules.toList_prefix_insert item.core.production)
      have ruled : item.core.production ∈ (rules.insert item.core.production).toList := rules.mem_insert.mpr (.inr rfl)
      have demanded {d : Nat × Demand} (h : d ∈ item.lookahead.toList.map (·, Demand.reduce item.core.production)) :
          d.1 < count ∧ d.2.HasRule (rules.insert item.core.production) := by
        obtain ⟨t, ht, rfl⟩ := List.mem_map.mp h
        exact ⟨lookaheads t (item.lookahead.mem_toList.mp ht), ruled⟩
      have filling : Attains _ _ (grammar.fillFrom i cells (item.lookahead.toList.map (·, .reduce item.core.production))) :=
        attains_fillFrom early filled (fun _ h => (demanded h).1) fun _ h => (demanded h).2
      rw [List.foldlM_map] at filling
      rw [numberOf_rule early ruled]
      exact filling.bind_pure fun _ _ => rfl
  · simp only [complete, Bool.false_and]
    exact .pure cells

/-- The demands of all items find their cells and their rules. -/
theorem attains_enterItems? {items : List Item}
    (early : (rules.insertAll (items.flatMap grammar.cfg.completedOf)).toList <+: all.toList)
    (filled : Filled rules count cells) (ends : endTerminal < count)
    (lookaheads : ∀ item ∈ items, ∀ t, item.lookahead.contains t → t < count) :
    Attains (fun cells => (cells.map (Cell.number all.numberOf), rules.insertAll (items.flatMap grammar.cfg.completedOf)))
      (items.foldlM (grammar.enterItem? i) (cells.map (Cell.number all.numberOf), rules))
      (grammar.fillFrom i cells (items.flatMap grammar.cfg.itemDemands)) := by
  induction items generalizing cells rules with
  | nil => exact .pure cells
  | cons item items ih =>
    have more : rules.insertAll ((item :: items).flatMap grammar.cfg.completedOf) =
        (rules.insertAll (grammar.cfg.completedOf item)).insertAll (items.flatMap grammar.cfg.completedOf) := by
      rw [List.flatMap_cons, Numbering.insertAll, List.foldl_append]
      rfl
    rw [more] at early ⊢
    obtain ⟨here, others⟩ := List.forall_mem_cons.mp lookaheads
    have soon := (Numbering.toList_prefix_insertAll _ _).trans early
    rw [List.foldlM_cons, List.flatMap_cons, fillFrom_append]
    refine (attains_enterItem? soon filled ends here).bind fun cells' entered => ih early ?_ others
    exact (filled.mono (rules.toList_prefix_insertAll _)).fillFrom (fun d hd => hasRule_itemDemands hd) entered

end Items

end Grammar

/-! ## States -/

/-- Whether what a state goes to by number is there, with one transition on each symbol. -/
structure Cfg.InRange (cfg : Cfg) (state : State) : Prop where
  terminal : ∀ t target, (.terminal t, target) ∈ state.transitions → t < cfg.terminalCount
  nonTerminal : ∀ n target, (.nonTerminal n, target) ∈ state.transitions → n < cfg.nonTerminalCount
  lookahead : ∀ item ∈ state.items.items, ∀ t, item.lookahead.contains t → t < cfg.terminalCount
  nodup : (state.transitions.map Prod.fst).Nodup

/-- So it is with the states of an automaton. -/
theorem Cfg.IsAutomaton.inRange {cfg : Cfg} {states : List State} (automaton : cfg.IsAutomaton states)
    (wf : cfg.WellFormed) {state : State} (hm : state ∈ states) : cfg.InRange state := by
  obtain ⟨i, hs⟩ := List.mem_iff_getElem?.mp hm
  have sound := automaton.sound i state hs
  have behind {symbol : Symbol} {target : Nat} (h : (symbol, target) ∈ state.transitions) :
      ∃ core, cfg.nextSymbol? core = some symbol := by
    obtain ⟨next, hnext, cores⟩ := automaton.advances i state hs _ _ (lookup_eq_some_of_mem sound.nodup h)
    obtain ⟨core, hc⟩ := automaton.exists_core hnext
    obtain ⟨old, -, hsymbol, -⟩ := cores core hc
    exact ⟨old, hsymbol⟩
  refine ⟨fun t target h => ?_, fun n target h => ?_, fun item hm t ht => ?_, sound.nodup⟩
  · obtain ⟨core, next⟩ := behind h
    exact wf.lt_of_mem_symbolsOf (List.mem_of_getElem? next)
  · obtain ⟨core, next⟩ := behind h
    exact wf.lt_of_nonTerminal_mem (List.mem_of_getElem? next)
  · exact (sound.isClosure.fits item hm).2.lt_of_contains t ht

namespace Grammar
variable {α : Type} {grammar : Grammar α} {rules all : Numbering Nat} {mergeCores : Bool}

/-- **The transitions and the items of a state find their cells, targets and rules.** -/
theorem attains_enterState? {state : State} (early : (rules.insertAll (grammar.cfg.completed state)).toList <+: all.toList)
    (ends : endTerminal < grammar.cfg.terminalCount) (inRange : grammar.cfg.InRange state) (index : Nat) :
    Attains (fun row => ((row.map (Cell.number all.numberOf), grammar.cfg.gotoRow state),
        rules.insertAll (grammar.cfg.completed state)))
      (grammar.enterState? rules state index) (grammar.fillRow index state) := by
  rw [Cfg.completed_eq] at early ⊢
  have soon := (rules.toList_prefix_insertAll _).trans early
  have gotosInRange : ∀ n target, (.nonTerminal n, target) ∈ state.transitions →
      n < (Array.replicate grammar.cfg.nonTerminalCount (none : Option Nat)).size :=
    fun n target h => (inRange.nonTerminal n target h).trans_eq Array.size_replicate.symm
  have shifts : Attains _ _ (grammar.fillFrom index _ (state.transitions.filterMap Cfg.shiftDemand?)) :=
    attains_enterTransitions? soon filled_replicate inRange.terminal gotosInRange
  rw [Array.map_replicate] at shifts
  have row : grammar.fillRow index state =
      grammar.fillFrom index (Array.replicate grammar.cfg.terminalCount .empty)
        (state.transitions.filterMap Cfg.shiftDemand?) >>= fun cells =>
      grammar.fillFrom index cells (state.items.items.flatMap grammar.cfg.itemDemands) >>= fun cells =>
      .ok cells.toList := by
    rw [← bind_assoc, ← fillFrom_append]
    rfl
  have noRule : ∀ d ∈ state.transitions.filterMap Cfg.shiftDemand?, d.2.HasRule rules := by
    intro d hd
    obtain ⟨⟨symbol, target⟩, -, made⟩ := List.mem_filterMap.mp hd
    cases symbol with
    | terminal t =>
      cases made
      trivial
    | nonTerminal n => cases made
  rw [enterState?, row]
  refine shifts.bind fun cells entered => ?_
  dsimp only
  have filled := filled_replicate.fillFrom noRule entered
  refine (attains_enterItems? early filled ends inRange.lookahead).bind fun cells' _ => ?_
  have same : ((cells'.map (Cell.number all.numberOf)).toList,
      (targetsAfter (Array.replicate grammar.cfg.nonTerminalCount none) state.transitions).toList) =
      (cells'.toList.map (Cell.number all.numberOf), grammar.cfg.gotoRow state) := by
    rw [targetsAfter_eq inRange.nodup, Array.toList_map]
    rfl
  dsimp only
  rw [same]
  exact .pure cells'.toList

/-- **All states find their cells, targets and rules.** -/
theorem attains_enterStates? {states : List (State × Nat)}
    (early : (rules.insertAll (states.flatMap fun s => grammar.cfg.completed s.1)).toList <+: all.toList)
    (ends : endTerminal < grammar.cfg.terminalCount) (inRange : ∀ s ∈ states, grammar.cfg.InRange s.1) :
    Attains (fun rows =>
        ((rows.zip states).map fun (row, s) => (row.map (Cell.number all.numberOf), grammar.cfg.gotoRow s.1),
        rules.insertAll (states.flatMap fun s => grammar.cfg.completed s.1)))
      (grammar.enterStates? states rules) (states.mapM fun (state, index) => grammar.fillRow index state) := by
  induction states generalizing rules with
  | nil => exact .pure []
  | cons s states ih =>
    obtain ⟨state, index⟩ := s
    have more : rules.insertAll (((state, index) :: states).flatMap fun s => grammar.cfg.completed s.1) =
        (rules.insertAll (grammar.cfg.completed state)).insertAll (states.flatMap fun s => grammar.cfg.completed s.1) := by
      rw [List.flatMap_cons, Numbering.insertAll, List.foldl_append]
      rfl
    rw [more] at early ⊢
    obtain ⟨here, others⟩ := List.forall_mem_cons.mp inRange
    have soon := (Numbering.toList_prefix_insertAll _ _).trans early
    rw [enterStates?, List.mapM_cons]
    refine (attains_enterState? soon ends here index).bind fun row _ => ?_
    exact (ih early others).bind fun rows _ => .pure (row :: rows)

/-- **The tables are built without a number that has no place**, or the first conflict is found. -/
theorem table?_eq (wf : grammar.cfg.WellFormed) (mergeCores : Bool) :
    (grammar.table? mergeCores).run = some (grammar.table mergeCores) := by
  have automaton := Cfg.isAutomaton_collection wf mergeCores
  have inRange : ∀ s ∈ (grammar.cfg.collection mergeCores).zipIdx, grammar.cfg.InRange s.1 :=
    fun s hs => automaton.inRange wf (List.fst_mem_of_mem_zipIdx hs)
  have rules : Numbering.empty.insertAll ((grammar.cfg.collection mergeCores).zipIdx.flatMap fun s =>
      grammar.cfg.completed s.1) = grammar.cfg.reductions (grammar.cfg.collection mergeCores) := by
    rw [Cfg.reductions, Numbering.ofList, ← List.flatMap_map, List.zipIdx_map_fst]
  have entered : Attains _ (grammar.enterStates? (grammar.cfg.collection mergeCores).zipIdx .empty) _ :=
    attains_enterStates? List.prefix_rfl wf.endTerminal_lt inRange
  rw [rules] at entered
  have whole : Attains id (grammar.table? mergeCores) (grammar.table mergeCores) := by
    refine .lift_bind (Cfg.collection?_eq wf mergeCores) ?_
    rw [table, tableOf]
    refine entered.bind fun rows filled => ?_
    have length := Except.length_of_mapM_eq_ok filled
    have actions : ((rows.zip (grammar.cfg.collection mergeCores).zipIdx).map fun p =>
        p.1.map fun cell => (cell.number (grammar.cfg.reductions (grammar.cfg.collection mergeCores)).numberOf).action) =
        rows.map fun row => row.map (Cfg.actionOf (grammar.cfg.reductions (grammar.cfg.collection mergeCores))) := by
      simp only [action_number]
      exact List.map_map.symm.trans (congrArg _ (List.map_fst_zip length.le))
    have gotos : ((rows.zip (grammar.cfg.collection mergeCores).zipIdx).map fun p => grammar.cfg.gotoRow p.2.1) =
        (grammar.cfg.collection mergeCores).map grammar.cfg.gotoRow := by
      conv_rhs => rw [← List.zipIdx_map_fst 0 (grammar.cfg.collection mergeCores), ← List.map_snd_zip length.ge]
      rw [List.map_map, List.map_map]
      rfl
    simp only [List.map_map, Function.comp_def, actions, gotos]
    exact .pure _
  rw [Attains] at whole
  rw [whole]
  cases grammar.table mergeCores <;> rfl

end Grammar
end TableParsing
