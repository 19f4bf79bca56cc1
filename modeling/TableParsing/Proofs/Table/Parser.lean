import TableParsing.Parser.Basic
import TableParsing.Proofs.Lr.Collection
import TableParsing.Proofs.Table.Cells
import TableParsing.Proofs.Table.Goto
import TableParsing.Proofs.Table.Packed

/-! # What tables say of the states

A machine **drives** an automaton (`Machine.Drives`) if what its tables say can be read off the states: a shift is
a transition on a terminal, a reduction a complete item, and behind every transition on a non-terminal there is
a goto.  The tables of a grammar are such tables.  Without precedence they **say all** that the states ask for
(`Machine.DrivesFully`). -/

namespace TableParsing

namespace Cfg
variable {cfg : Cfg} {state : Collection.State} {states : List Collection.State} {t next p : Nat}

/-! ## Demands of a state -/

theorem isComplete_iff {core : Core} (h : cfg.IsCore core) :
    cfg.isComplete core ↔ core.dot = (cfg.symbolsOf core.production).length := by
  rw [isComplete, decide_eq_true_eq]
  exact ⟨fun hle => Nat.le_antisymm h.2 hle, fun heq => Nat.le_of_eq heq.symm⟩

/-- An item asks for something if it is complete: the added production for the end, any other for its
reduction in front of each lookahead. -/
theorem mem_itemDemands {item : Item} {demand : Demand} :
    (t, demand) ∈ cfg.itemDemands item ↔ cfg.isComplete item.core ∧
      (cfg.resultOf? item.core.production = none ∧ t = endTerminal ∧ demand = .accept ∨
        (cfg.resultOf? item.core.production).isSome ∧ item.lookahead.contains t ∧
          demand = .reduce item.core.production) := by
  rw [itemDemands]
  by_cases complete : cfg.isComplete item.core
  · rw [if_pos complete]
    cases cfg.resultOf? item.core.production with
    | none => simp [complete]
    | some n =>
      rw [List.mem_map]
      constructor
      · rintro ⟨u, hu, same⟩
        cases same
        exact ⟨complete, .inr ⟨rfl, item.lookahead.mem_toList.mp hu, rfl⟩⟩
      · rintro ⟨-, ⟨none, -⟩ | ⟨-, ht, rfl⟩⟩
        · cases none
        · exact ⟨t, item.lookahead.mem_toList.mpr ht, rfl⟩
  · simp [complete]

theorem mem_demands {demand : Demand} : (t, demand) ∈ cfg.demands state ↔
    (∃ next, (.terminal t, next) ∈ state.transitions ∧ demand = .shift next) ∨
      ∃ item ∈ state.items.items, (t, demand) ∈ cfg.itemDemands item := by
  rw [demands, List.mem_append, List.mem_filterMap, List.mem_flatMap]
  refine or_congr_left ?_
  constructor
  · rintro ⟨⟨symbol, next⟩, hm, h⟩
    cases symbol with
    | nonTerminal n => cases h
    | terminal u =>
      cases h
      exact ⟨next, hm, rfl⟩
  · rintro ⟨next, hm, rfl⟩
    exact ⟨_, hm, rfl⟩

theorem shift_mem_demands :
    (t, .shift next) ∈ cfg.demands state ↔ (.terminal t, next) ∈ state.transitions := by
  rw [mem_demands]
  constructor
  · rintro (⟨target, hm, same⟩ | ⟨item, -, h⟩)
    · cases same
      exact hm
    · rcases mem_itemDemands.mp h with ⟨-, ⟨-, -, same⟩ | ⟨-, -, same⟩⟩ <;> cases same
  · intro h
    exact .inl ⟨next, h, rfl⟩

theorem reduce_mem_demands : (t, .reduce p) ∈ cfg.demands state ↔
    ∃ item ∈ state.items.items, item.core.production = p ∧ cfg.isComplete item.core ∧
      (cfg.resultOf? p).isSome ∧ item.lookahead.contains t := by
  rw [mem_demands]
  constructor
  · rintro (⟨target, -, same⟩ | ⟨item, hm, h⟩)
    · cases same
    · rcases mem_itemDemands.mp h with ⟨complete, ⟨-, -, same⟩ | ⟨result, ht, same⟩⟩ <;> cases same
      exact ⟨item, hm, rfl, complete, result, ht⟩
  · rintro ⟨item, hm, rfl, complete, result, ht⟩
    exact .inr ⟨item, hm, mem_itemDemands.mpr ⟨complete, .inr ⟨result, ht, rfl⟩⟩⟩

theorem accept_mem_demands : (t, .accept) ∈ cfg.demands state ↔
    t = endTerminal ∧ ∃ item ∈ state.items.items, cfg.isComplete item.core ∧
      cfg.resultOf? item.core.production = none := by
  rw [mem_demands]
  constructor
  · rintro (⟨target, -, same⟩ | ⟨item, hm, h⟩)
    · cases same
    · rcases mem_itemDemands.mp h with ⟨complete, ⟨none, rfl, -⟩ | ⟨-, -, same⟩⟩
      · exact ⟨rfl, item, hm, complete, none⟩
      · cases same
  · rintro ⟨rfl, item, hm, complete, none⟩
    exact .inr ⟨item, hm, mem_itemDemands.mpr ⟨complete, .inl ⟨none, rfl, rfl⟩⟩⟩

/-! ## Reductions -/

theorem mem_reductions : p ∈ (cfg.reductions states).toList ↔ ∃ state ∈ states,
    ∃ item ∈ state.items.items, item.core.production = p ∧ cfg.isComplete item.core ∧
      (cfg.resultOf? p).isSome := by
  rw [reductions, Numbering.mem_ofList, List.mem_flatMap]
  refine exists_congr fun state => and_congr_right fun _ => ?_
  simp only [completed, List.mem_map, List.mem_filter, Bool.and_eq_true]
  constructor
  · rintro ⟨item, ⟨hm, complete, result⟩, rfl⟩
    exact ⟨item, hm, rfl, complete, result⟩
  · rintro ⟨item, hm, rfl, complete, result⟩
    exact ⟨item, ⟨hm, complete, result⟩, rfl⟩

/-- A production's number leads to its reduction. -/
theorem getElem?_reductions (h : p ∈ (cfg.reductions states).toList) :
    ((cfg.reductions states).toList.map cfg.reductionOf)[(cfg.reductions states).numberOf p]? =
      some (cfg.reductionOf p) := by
  rw [List.getElem?_map, Numbering.toList, Array.getElem?_toList, Numbering.getElem?_numberOf _ h]
  rfl

end Cfg

namespace Grammar
variable {α : Type} {grammar : Grammar α} {states : List Collection.State} {state : Collection.State}
  {table : ParserTable} {i t p next n : Nat} {production : Production α}

theorem getElem?_rules (h : grammar.productions[p]? = some production) :
    grammar.cfg.rules[p]? = some ⟨production.result, production.symbols⟩ := by
  rw [cfg, List.getElem?_toArray, List.getElem?_map, h]
  rfl

theorem symbolsOf_eq (h : grammar.productions[p]? = some production) :
    grammar.cfg.symbolsOf p = production.symbols := Cfg.symbolsOf_rule (getElem?_rules h)

theorem resultOf?_eq (h : grammar.productions[p]? = some production) :
    grammar.cfg.resultOf? p = some production.result :=
  Cfg.resultOf?_eq_some_iff.mpr ⟨_, getElem?_rules h, rfl⟩

theorem exists_production_of_resultOf? (h : (grammar.cfg.resultOf? p).isSome) :
    ∃ production, grammar.productions[p]? = some production := by
  obtain ⟨n, hn⟩ := Option.isSome_iff_exists.mp h
  obtain ⟨rule, hr, -⟩ := Cfg.resultOf?_eq_some_iff.mp hn
  rw [cfg, List.getElem?_toArray, List.getElem?_map] at hr
  obtain ⟨production, hp, -⟩ := Option.map_eq_some_iff.mp hr
  exact ⟨production, hp⟩

/-! ## Tables -/

theorem tableOf_eq_ok (h : grammar.tableOf states = .ok table) : ∃ rows,
    states.zipIdx.mapM (fun (state, index) => grammar.fillRow index state) = .ok rows ∧
      table = {
        actions := .ofRows (rows.map fun row => row.map (Cfg.actionOf (grammar.cfg.reductions states)))
          grammar.cfg.terminalCount
        gotos := .ofRows (states.map grammar.cfg.gotoRow) grammar.cfg.nonTerminalCount
        reductions := (grammar.cfg.reductions states).toList.map grammar.cfg.reductionOf
        stateCount := states.length } := by
  rw [tableOf] at h
  obtain ⟨rows, hrows, h⟩ := Except.bind_eq_ok_iff.mp h
  exact ⟨rows, hrows, (Except.ok.inj h).symm⟩

/-- The cells that the actions of a state come from. -/
theorem exists_cells (h : grammar.tableOf states = .ok table) (hs : states[i]? = some state) :
    ∃ cells : Array Cell, cells.size = grammar.terminals.length ∧
      grammar.fillFrom i (Array.replicate grammar.terminals.length .empty) (grammar.cfg.demands state) =
        .ok cells ∧
      ∀ t : Nat, table.actions.get i t =
        Cfg.actionOf (grammar.cfg.reductions states) (cells.getD t .empty) := by
  obtain ⟨rows, hrows, rfl⟩ := tableOf_eq_ok h
  have zip : states.zipIdx[i]? = some (state, i) := by
    rw [List.getElem?_zipIdx, hs, Option.map_some, Nat.zero_add]
  obtain ⟨row, hrow, fill⟩ := Except.getElem?_of_mapM_eq_ok hrows zip
  obtain ⟨cells, hcells, fill⟩ := Except.bind_eq_ok_iff.mp fill
  cases fill
  have size : cells.size = grammar.terminals.length :=
    (size_fillFrom hcells).trans Array.size_replicate
  have width : cells.size = grammar.cfg.terminalCount := size
  refine ⟨cells, size, hcells, ?_⟩
  intro t
  rw [ActionTable.get, ActionTable.ofRows, Array.getD_eq_getD_getElem?]
  -- within the width the packed table is the rows, outside of it there is no cell either
  by_cases ht : t < cells.size
  · have mapped : (rows.map fun row => row.map (Cfg.actionOf (grammar.cfg.reductions states)))[i]? =
        some (cells.toList.map (Cfg.actionOf (grammar.cfg.reductions states))) := by
      rw [List.getElem?_map, hrow]
      rfl
    have cell : (cells.toList.map (Cfg.actionOf (grammar.cfg.reductions states)))[t]? =
        some (Cfg.actionOf (grammar.cfg.reductions states) cells[t]) := by
      rw [List.getElem?_map, Array.getElem?_toList, Array.getElem?_eq_getElem ht]
      rfl
    rw [PackedTable.get?_pack mapped cell (width ▸ ht), Array.getElem?_eq_getElem ht]
    rfl
  · rw [PackedTable.get?_pack_eq_none (.inr (Nat.le_of_not_lt (width ▸ ht))),
      Array.getElem?_eq_none (Nat.le_of_not_lt ht)]
    rfl

/-- Outside the states all actions are errors. -/
theorem get_eq_error (h : grammar.tableOf states = .ok table) (hs : states[i]? = none) :
    table.actions.get i t = .error := by
  obtain ⟨rows, hrows, rfl⟩ := tableOf_eq_ok h
  have length : rows.length = states.length :=
    (Except.length_of_mapM_eq_ok hrows).trans List.length_zipIdx
  rw [ActionTable.get, ActionTable.ofRows, PackedTable.get?_pack_eq_none (.inl ?_), Option.getD_none]
  rw [List.length_map, length]
  exact List.getElem?_eq_none_iff.mp hs

/-- **An action comes from a demand of its state.** -/
theorem exists_demand (h : grammar.tableOf states = .ok table) (ha : table.actions.get i t ≠ .error) :
    ∃ state demand, states[i]? = some state ∧ (t, demand) ∈ grammar.cfg.demands state ∧
      table.actions.get i t = Cfg.actionOf (grammar.cfg.reductions states) (.demand demand) := by
  cases hs : states[i]? with
  | none => exact absurd (get_eq_error h hs) ha
  | some state =>
    obtain ⟨cells, -, fill, actions⟩ := exists_cells h hs
    rw [actions, Array.getD_eq_getD_getElem?] at ha ⊢
    cases hc : cells[t]? with
    | none =>
      rw [hc] at ha
      exact absurd rfl ha
    | some cell =>
      cases cell with
      | empty =>
        rw [hc] at ha
        exact absurd rfl ha
      | blocked p =>
        rw [hc] at ha
        exact absurd rfl ha
      | demand demand =>
        refine ⟨state, demand, rfl, ?_, rfl⟩
        rcases mem_of_fillFrom fill hc with hm | old
        · exact hm
        · rw [Array.getElem?_replicate] at old
          split at old <;> cases old

/-- **Without precedence every demand is an action.** -/
theorem HasNoPrecedence.get_eq (hp : grammar.HasNoPrecedence) (h : grammar.tableOf states = .ok table)
    (hs : states[i]? = some state) {demand : Demand} (hd : (t, demand) ∈ grammar.cfg.demands state)
    (ht : t < grammar.terminals.length) :
    table.actions.get i t = Cfg.actionOf (grammar.cfg.reductions states) (.demand demand) := by
  obtain ⟨cells, -, fill, actions⟩ := exists_cells h hs
  -- no cell is blocked to begin with
  have unblocked (t p : Nat) :
      (Array.replicate grammar.terminals.length Cell.empty)[t]? ≠ some (.blocked p) := by
    rw [Array.getElem?_replicate]
    split <;> exact nofun
  have cell := (hp.getElem?_fillFrom fill unblocked).2 t demand hd (by rwa [Array.size_replicate])
  rw [actions, Array.getD_eq_getD_getElem?, cell, Option.getD_some]

theorem get?_gotos (h : grammar.tableOf states = .ok table) (hs : states[i]? = some state)
    (ht : state.transitions.lookup (.nonTerminal n) = some next) (hn : n < grammar.nonTerminals.length) :
    table.gotos.get? i n = some next := by
  obtain ⟨rows, -, rfl⟩ := tableOf_eq_ok h
  have row : (states.map grammar.cfg.gotoRow)[i]? = some (grammar.cfg.gotoRow state) := by
    rw [List.getElem?_map, hs]
    rfl
  have hn : n < grammar.cfg.nonTerminalCount := hn
  refine GotoTable.get?_ofRows row hn ?_
  rw [Cfg.gotoRow, List.getElem?_map, List.getElem?_range hn, Option.map_some, ht]
  rfl

end Grammar

/-! ## Machines -/

namespace Machine
variable {α : Type} {grammar : Grammar α} {states : List Collection.State} {machine : Machine α}
  {table : ParserTable}

/-- Whether a number is that of the reduction of a production, with its action. -/
structure Reduces (machine : Machine α) (number p : Nat) (production : Production α) : Prop where
  reduction : machine.table.reductions[number]? =
    some ⟨p, production.result, production.symbols.length⟩
  action : machine.semantics[number]? = some production.action

/-- Whether all that a machine does is asked for by the states. -/
structure Drives (grammar : Grammar α) (states : List Collection.State) (machine : Machine α) : Prop where
  terminalCount_eq : machine.table.actions.terminalCount = grammar.terminals.length
  shift : ∀ i t next : Nat, machine.action i t = .shift next →
    ∃ state, states[i]? = some state ∧ state.transitions.lookup (.terminal t) = some next
  reduce : ∀ i t number : Nat, machine.action i t = .reduce number → ∃ state p production,
    states[i]? = some state ∧ grammar.productions[p]? = some production ∧
      state.items.Has ⟨p, production.symbols.length⟩ ∧ machine.Reduces number p production
  accept : ∀ i t : Nat, machine.action i t = .accept → t = endTerminal ∧
    ∃ state, states[i]? = some state ∧ state.items.Has ⟨grammar.cfg.augmented, 1⟩
  goto : ∀ (i n next : Nat) state, states[i]? = some state →
    state.transitions.lookup (.nonTerminal n) = some next → n < grammar.nonTerminals.length →
    machine.table.gotos.get? i n = some next

/-- Whether a machine does all that the states ask for. -/
structure DrivesFully (grammar : Grammar α) (states : List Collection.State) (machine : Machine α) : Prop where
  shift : ∀ (i t next : Nat) state, states[i]? = some state →
    state.transitions.lookup (.terminal t) = some next → t < grammar.terminals.length →
    machine.action i t = .shift next
  reduce : ∀ (i t p : Nat) state production, states[i]? = some state →
    grammar.productions[p]? = some production → state.items.Allows ⟨p, production.symbols.length⟩ t →
    ∃ number, machine.action i t = .reduce number ∧ machine.Reduces number p production
  accept : ∀ (i : Nat) state, states[i]? = some state → state.items.Has ⟨grammar.cfg.augmented, 1⟩ →
    machine.action i endTerminal = .accept

theorem getElem?_filterMap {β γ : Type} {f : β → Option γ} {l : List β} (h : ∀ b ∈ l, (f b).isSome)
    (i : Nat) : (l.filterMap f)[i]? = l[i]?.bind f := by
  induction l generalizing i with
  | nil => rfl
  | cons b l ih =>
    obtain ⟨c, hc⟩ := Option.isSome_iff_exists.mp (h b List.mem_cons_self)
    rw [List.filterMap_cons_some hc]
    cases i with
    | zero => exact hc.symm
    | succ i => exact ih (fun b hb => h b (List.mem_cons_of_mem _ hb)) i

section OfGrammar
variable (h : grammar.tableOf states = .ok table) (options : ParserOptions)
include h

/-- The number of a complete production is that of its reduction. -/
theorem reduces_ofGrammar {state : Collection.State} {item : Item} {production : Production α}
    (hs : state ∈ states) (hm : item ∈ state.items.items) (complete : grammar.cfg.isComplete item.core)
    (hp : grammar.productions[item.core.production]? = some production) :
    (ofGrammar grammar table options).Reduces ((grammar.cfg.reductions states).numberOf item.core.production)
      item.core.production production := by
  have result := Grammar.resultOf?_eq hp
  have mem : item.core.production ∈ (grammar.cfg.reductions states).toList :=
    Cfg.mem_reductions.mpr ⟨state, hs, item, hm, rfl, complete, result ▸ rfl⟩
  have reduction : grammar.cfg.reductionOf item.core.production =
      ⟨item.core.production, production.result, production.symbols.length⟩ := by
    rw [Cfg.reductionOf, result, Grammar.symbolsOf_eq hp]
    rfl
  obtain ⟨rows, -, rfl⟩ := Grammar.tableOf_eq_ok h
  have there := Cfg.getElem?_reductions mem
  refine ⟨there.trans (congrArg some reduction), ?_⟩
  rw [ofGrammar]
  simp only
  rw [getElem?_filterMap, there, reduction, Option.bind_some, hp]
  · rfl
  · intro r hr
    obtain ⟨p, hp, rfl⟩ := List.mem_map.mp hr
    obtain ⟨_, -, _, -, -, -, result⟩ := Cfg.mem_reductions.mp hp
    obtain ⟨production, hp⟩ := Grammar.exists_production_of_resultOf? result
    rw [Cfg.reductionOf, hp]
    rfl

omit h in
/-- The complete item without a result is that of the added production. -/
theorem core_eq_augmented {core : Core} (isCore : grammar.cfg.IsCore core)
    (complete : grammar.cfg.isComplete core) (result : grammar.cfg.resultOf? core.production = none) :
    core = ⟨grammar.cfg.augmented, 1⟩ := by
  obtain ⟨p, dot⟩ := core
  have last : p = grammar.cfg.augmented := by
    refine Nat.le_antisymm isCore.1 (Nat.le_of_not_lt fun hlt => ?_)
    rw [Cfg.resultOf?, Array.getElem?_eq_getElem hlt] at result
    cases result
  subst last
  have length := (Cfg.isComplete_iff isCore).mp complete
  rw [Cfg.symbolsOf_augmented] at length
  rw [show dot = 1 from length]

/-- **A production is reduced only in front of a terminal that its state allows.** -/
theorem allows_ofGrammar (automaton : grammar.cfg.IsAutomaton states) {i t number : Nat}
    (ha : (ofGrammar grammar table options).action i t = .reduce number) : ∃ state p production,
      states[i]? = some state ∧ grammar.productions[p]? = some production ∧
      state.items.Allows ⟨p, production.symbols.length⟩ t ∧
      (ofGrammar grammar table options).Reduces number p production := by
  have real : table.actions.get i t ≠ .error := fun none => nomatch ha.symm.trans none
  obtain ⟨state, demand, hs, hd, heq⟩ := Grammar.exists_demand h real
  have ha : table.actions.get i t = .reduce number := ha
  rw [ha] at heq
  cases demand with
  | shift target => cases heq
  | accept => cases heq
  | reduce p =>
    cases heq
    obtain ⟨item, hm, rfl, complete, result, ht⟩ := Cfg.reduce_mem_demands.mp hd
    obtain ⟨production, hp⟩ := Grammar.exists_production_of_resultOf? result
    have isCore := ((automaton.sound i state hs).isClosure.fits item hm).1
    have dot := (Cfg.isComplete_iff isCore).mp complete
    rw [Grammar.symbolsOf_eq hp] at dot
    exact ⟨state, _, production, hs, hp, ⟨item, hm, by rw [← dot], ht⟩,
      reduces_ofGrammar h options (List.mem_of_getElem? hs) hm complete hp⟩

/-- **The tables of a grammar come from its states.** -/
theorem drives_ofGrammar (automaton : grammar.cfg.IsAutomaton states) :
    (ofGrammar grammar table options).Drives grammar states := by
  -- an action that is no error comes from a demand, and of the same kind
  have asked {i t : Nat} {action : Action} (ha : table.actions.get i t = action) (real : action ≠ .error) :
      ∃ state demand, states[i]? = some state ∧ (t, demand) ∈ grammar.cfg.demands state ∧
        action = Cfg.actionOf (grammar.cfg.reductions states) (.demand demand) := by
    subst ha
    exact Grammar.exists_demand h real
  refine ⟨?_, fun i t next ha => ?_, fun i t number ha => ?_, fun i t ha => ?_,
    fun i n next state hs => Grammar.get?_gotos h hs⟩
  · obtain ⟨rows, -, rfl⟩ := Grammar.tableOf_eq_ok h
    rfl
  · obtain ⟨state, demand, hs, hd, heq⟩ := asked ha nofun
    cases demand with
    | shift target =>
      cases heq
      exact ⟨state, hs, lookup_eq_some_of_mem (automaton.sound i state hs).nodup
        (Cfg.shift_mem_demands.mp hd)⟩
    | reduce p => cases heq
    | accept => cases heq
  · obtain ⟨state, p, production, hs, hp, allows, reduces⟩ := allows_ofGrammar h options automaton ha
    exact ⟨state, p, production, hs, hp, allows.has, reduces⟩
  · obtain ⟨state, demand, hs, hd, heq⟩ := asked ha nofun
    cases demand with
    | shift target => cases heq
    | reduce p => cases heq
    | accept =>
      obtain ⟨rfl, item, hm, complete, result⟩ := Cfg.accept_mem_demands.mp hd
      have isCore := ((automaton.sound i state hs).isClosure.fits item hm).1
      exact ⟨rfl, state, hs, state.items.has_iff.mpr ⟨item, hm, core_eq_augmented isCore complete result⟩⟩

/-- **Without precedence the tables say all that the states ask for.** -/
theorem drivesFully_ofGrammar (wf : grammar.cfg.WellFormed) (automaton : grammar.cfg.IsAutomaton states)
    (hp : grammar.HasNoPrecedence) : (ofGrammar grammar table options).DrivesFully grammar states := by
  refine ⟨?_, ?_, ?_⟩
  · intro i t next state hs ht hlt
    exact hp.get_eq h hs (Cfg.shift_mem_demands.mpr (mem_of_lookup_eq_some ht)) hlt
  · intro i t p state production hs hprod ht
    have sound := automaton.sound i state hs
    obtain ⟨item, hm, hcore, hlook⟩ := ht
    have production_eq : item.core.production = p := congrArg Core.production hcore
    have complete : grammar.cfg.isComplete item.core := by
      rw [Cfg.isComplete_iff (sound.isClosure.fits item hm).1, hcore, Grammar.symbolsOf_eq hprod]
    subst production_eq
    have demand : (t, .reduce item.core.production) ∈ grammar.cfg.demands state :=
      Cfg.reduce_mem_demands.mpr ⟨item, hm, rfl, complete, Grammar.resultOf?_eq hprod ▸ rfl, hlook⟩
    have bound : t < grammar.terminals.length := (sound.isClosure.fits item hm).2.lt_of_contains t hlook
    exact ⟨_, hp.get_eq h hs demand bound,
      reduces_ofGrammar h options (List.mem_of_getElem? hs) hm complete hprod⟩
  · intro i state hs ha
    obtain ⟨item, hm, hcore⟩ := state.items.has_iff.mp ha
    have complete : grammar.cfg.isComplete item.core := by
      rw [Cfg.isComplete_iff ((automaton.sound i state hs).isClosure.fits item hm).1, hcore,
        Cfg.symbolsOf_augmented]
      rfl
    have result : grammar.cfg.resultOf? item.core.production = none := by
      rw [hcore, Cfg.resultOf?, Cfg.augmented, Array.getElem?_eq_none (Nat.le_refl _)]
      rfl
    exact hp.get_eq h hs (Cfg.accept_mem_demands.mpr ⟨rfl, item, hm, complete, result⟩) wf.endTerminal_lt

end OfGrammar

end Machine

/-! ## Parsers -/

/-- What is built of a grammar are its tables, or a report of the first conflict. -/
theorem Grammar.value_buildTable {α : Type} (grammar : Grammar α) (options : ParserOptions) :
    (grammar.buildTable options).run.value = (grammar.table options.mergeCores).mapError grammar.conflictError := by
  rw [buildTable]
  cases grammar.table options.mergeCores with
  | ok table => rfl
  | error conflict =>
    simp only
    split <;> rfl

theorem Grammar.table_of_buildTable {α : Type} {grammar : Grammar α} {options : ParserOptions}
    {table : ParserTable} (h : (grammar.buildTable options).run.value = .ok table) :
    grammar.table options.mergeCores = .ok table := by
  rw [value_buildTable] at h
  cases ht : grammar.table options.mergeCores with
  | ok built =>
    rw [ht] at h
    cases h
    rfl
  | error conflict =>
    rw [ht] at h
    cases h

/-- A parser's machine has the table of the grammar. -/
theorem Grammar.table_of_toParser {α : Type} [Inhabited α] {grammar : Grammar α} {options : ParserOptions}
    {parser : Parser α} (h : (grammar.toParser options).run.value = .ok parser) :
    ∃ table, grammar.table options.mergeCores = .ok table ∧
      parser.machine = .ofGrammar grammar table options := by
  rw [Grammar.toParser] at h
  obtain ⟨lexer, -, h⟩ := Logged.bind_eq_ok_iff.mp h
  obtain ⟨table, ht, h⟩ := Logged.bind_eq_ok_iff.mp h
  obtain ⟨_, -, h⟩ := Logged.bind_eq_ok_iff.mp h
  cases h
  exact ⟨table, table_of_buildTable ht, rfl⟩

/-- A parser's lexer is that of the grammar. -/
theorem Grammar.lexer_of_toParser {α : Type} [Inhabited α] {grammar : Grammar α} {options : ParserOptions}
    {parser : Parser α} (h : (grammar.toParser options).run.value = .ok parser) :
    grammar.lexer.run.value = .ok parser.lexer := by
  rw [Grammar.toParser] at h
  obtain ⟨lexer, adapted, h⟩ := Logged.bind_eq_ok_iff.mp h
  obtain ⟨table, -, h⟩ := Logged.bind_eq_ok_iff.mp h
  obtain ⟨_, -, h⟩ := Logged.bind_eq_ok_iff.mp h
  cases h
  have adapted : Except.mapError GrammarError.lexer grammar.lexer.run.value = .ok lexer := adapted
  cases made : grammar.lexer.run.value with
  | ok found =>
    rw [made] at adapted
    cases adapted
    rfl
  | error e =>
    rw [made] at adapted
    cases adapted

/-- A grammar with a lexer and a table has a parser. -/
theorem Grammar.exists_toParser {α : Type} [Inhabited α] {grammar : Grammar α} {options : ParserOptions}
    {lexer : Lexer α TransitionTable} {table : ParserTable} (hl : grammar.lexer.run.value = .ok lexer)
    (ht : grammar.table options.mergeCores = .ok table) :
    ∃ parser, (grammar.toParser options).run.value = .ok parser := by
  have built : (grammar.buildTable options).run.value = .ok table := by
    rw [value_buildTable, ht]
    rfl
  have adapted : (grammar.lexer.adapt GrammarError.lexer).run.value = .ok lexer := by
    change Except.mapError _ grammar.lexer.run.value = _
    rw [hl]
    rfl
  exact ⟨_, Logged.bind_eq_ok_iff.mpr ⟨lexer, adapted, Logged.bind_eq_ok_iff.mpr ⟨table, built, rfl⟩⟩⟩

end TableParsing
