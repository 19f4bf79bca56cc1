import TableParsing.Proofs.Table.Agreement

/-! # Demands that meet one after the other

The cells of a state are filled terminal by terminal: the demands on one terminal meet in its cell in their order, and
no others do (`exists_fillFrom_iff`, `meetAll_of_fillFrom`).  The shift comes first.  What the items ask for comes
behind it (`Cfg.competing`), and is one of three kinds.

* Some of it **gives way** to the shift: precedence decides for the shift, which stays in the cell.
* Some of it is settled otherwise: it takes the cell or blocks it, and from then on the cell takes nothing else.
* What precedence does not speak of does not go together with the shift.

So a cell is filled if all gives way that comes in front of the first that does not, and nothing comes behind that
(`meetAll_shift_eq_ok_iff`).  Whether anything comes in front of it or behind it is a matter of order. -/

namespace TableParsing

open Collection (State)

/-- The demands on a terminal, in order. -/
def demandsOn (t : Nat) (demands : List (Nat × Demand)) : List Demand :=
  demands.filterMap fun (u, demand) => if u = t then some demand else none

theorem mem_demandsOn {t : Nat} {demands : List (Nat × Demand)} {d : Demand} :
    d ∈ demandsOn t demands ↔ (t, d) ∈ demands := by
  rw [demandsOn, List.mem_filterMap]
  constructor
  · rintro ⟨⟨u, demand⟩, hm, h⟩
    obtain ⟨same, h⟩ := Option.ite_none_right_eq_some.mp h
    cases h
    exact same ▸ hm
  · exact fun h => ⟨(t, d), h, if_pos rfl⟩

theorem demandsOn_append (t : Nat) (demands others : List (Nat × Demand)) :
    demandsOn t (demands ++ others) = demandsOn t demands ++ demandsOn t others := List.filterMap_append

theorem demandsOn_cons_self (t : Nat) (d : Demand) (demands : List (Nat × Demand)) :
    demandsOn t ((t, d) :: demands) = d :: demandsOn t demands := List.filterMap_cons_some (if_pos rfl)

theorem demandsOn_cons_of_ne {t u : Nat} (differs : u ≠ t) (d : Demand) (demands : List (Nat × Demand)) :
    demandsOn t ((u, d) :: demands) = demandsOn t demands := List.filterMap_cons_none (if_neg differs)

/-- Whether a cell is taken or blocked by a demand. -/
inductive Cell.Repeats (d : Demand) : Cell → Prop
  | demand : Repeats d (.demand d)
  | blocked {p : Nat} (h : d = .reduce p) : Repeats d (.blocked p)

namespace Grammar
variable {α : Type} (grammar : Grammar α)

/-- The cell of a terminal in a state after some more demands. -/
def meetAll (i t : Nat) : Cell → List Demand → Except Conflict Cell
  | cell, [] => .ok cell
  | cell, new :: ds => do
    let cell ← grammar.meet i t cell new
    meetAll i t cell ds

variable {grammar} {i t target p : Nat} {cell cell' : Cell} {d new : Demand} {ds others : List Demand}

theorem meetAll_cons_eq_ok_iff : grammar.meetAll i t cell (new :: ds) = .ok cell' ↔
    ∃ next, grammar.meet i t cell new = .ok next ∧ grammar.meetAll i t next ds = .ok cell' :=
  Except.bind_eq_ok_iff

/-! ## Cells that are filled one by one -/

section Rows
variable {cells cells' : Array Cell} {demands : List (Nat × Demand)}

/-- The cell of a terminal after a demand on some terminal. -/
theorem getD_setIfInBounds {u : Nat} : (cells.setIfInBounds u cell).getD t .empty =
    if u = t ∧ t < cells.size then cell else cells.getD t .empty := by
  rw [Array.getD_eq_getD_getElem?, Array.getElem?_setIfInBounds, Array.getD_eq_getD_getElem?]
  by_cases same : u = t
  · subst same
    by_cases bound : u < cells.size
    · rw [if_pos rfl, if_pos bound, if_pos ⟨rfl, bound⟩, Option.getD_some]
    · rw [if_pos rfl, if_neg bound, if_neg fun h => bound h.2, Array.getElem?_eq_none (Nat.le_of_not_lt bound)]
  · rw [if_neg same, if_neg fun h => same h.1]

theorem fillFrom_append (demands others : List (Nat × Demand)) : grammar.fillFrom i cells (demands ++ others) =
    grammar.fillFrom i cells demands >>= fun cells => grammar.fillFrom i cells others := by
  induction demands generalizing cells with
  | nil => rfl
  | cons first demands ih => simp only [List.cons_append, fillFrom, ih, bind_assoc]

/-- **A cell is what the demands on its terminal come to.** -/
theorem meetAll_of_fillFrom (h : grammar.fillFrom i cells demands = .ok cells') (bound : t < cells.size) :
    grammar.meetAll i t (cells.getD t .empty) (demandsOn t demands) = .ok (cells'.getD t .empty) := by
  induction demands generalizing cells with
  | nil =>
    cases h
    rfl
  | cons first demands ih =>
    obtain ⟨u, new⟩ := first
    obtain ⟨cell, met, h⟩ := Except.bind_eq_ok_iff.mp h
    have rest := ih h (by rwa [Array.size_setIfInBounds])
    rw [getD_setIfInBounds] at rest
    by_cases same : u = t
    · subst same
      rw [if_pos ⟨rfl, bound⟩] at rest
      rw [demandsOn_cons_self]
      exact meetAll_cons_eq_ok_iff.mpr ⟨cell, met, rest⟩
    · rw [if_neg fun h => same h.1] at rest
      rwa [demandsOn_cons_of_ne same]

/-- **Where cells cannot be filled, one of them cannot.** -/
theorem exists_of_fillFrom_eq_error {conflict : Conflict} (h : grammar.fillFrom i cells demands = .error conflict) :
    ∃ t < cells.size, grammar.meetAll i t (cells.getD t .empty) (demandsOn t demands) = .error conflict := by
  induction demands generalizing cells with
  | nil => cases h
  | cons first demands ih =>
    obtain ⟨u, new⟩ := first
    rcases Except.bind_eq_error_iff.mp h with fails | ⟨cell, met, h⟩
    · -- outside the row every demand meets an empty cell
      have bound : u < cells.size := by
        by_contra outside
        rw [Array.getD_eq_getD_getElem?, Array.getElem?_eq_none (Nat.le_of_not_lt outside)] at fails
        cases fails
      refine ⟨u, bound, ?_⟩
      rw [demandsOn_cons_self]
      exact Except.bind_eq_error_iff.mpr (.inl fails)
    · obtain ⟨t, bound, fails⟩ := ih h
      rw [Array.size_setIfInBounds] at bound
      rw [getD_setIfInBounds] at fails
      refine ⟨t, bound, ?_⟩
      by_cases same : u = t
      · subst same
        rw [if_pos ⟨rfl, bound⟩] at fails
        rw [demandsOn_cons_self]
        exact Except.bind_eq_error_iff.mpr (.inr ⟨cell, met, fails⟩)
      · rw [if_neg fun h => same h.1] at fails
        rwa [demandsOn_cons_of_ne same]

/-- **Cells are filled if each of them is.** -/
theorem exists_fillFrom_iff : (∃ cells', grammar.fillFrom i cells demands = .ok cells') ↔
    ∀ t < cells.size, ∃ cell, grammar.meetAll i t (cells.getD t .empty) (demandsOn t demands) = .ok cell := by
  refine ⟨fun ⟨cells', h⟩ t bound => ⟨_, meetAll_of_fillFrom h bound⟩, fun h => ?_⟩
  cases filled : grammar.fillFrom i cells demands with
  | ok cells' => exact ⟨cells', rfl⟩
  | error conflict =>
    obtain ⟨t, bound, fails⟩ := exists_of_fillFrom_eq_error filled
    obtain ⟨cell, all⟩ := h t bound
    cases fails.symm.trans all

end Rows

/-! ## Cells that are taken -/

/-- A cell that a demand has taken or blocked takes it once more, and takes nothing else. -/
theorem meet_eq_ok_of_repeats (repeats : cell.Repeats d) (first : ∀ next, d ≠ .shift next)
    (second : ∀ next, new ≠ .shift next) : grammar.meet i t cell new = .ok cell' ↔ new = d ∧ cell' = cell := by
  rw [meet.eq_def]
  cases repeats with
  | demand =>
    cases d with
    | shift next => exact absurd rfl (first next)
    | reduce p =>
      cases new with
      | shift next => exact absurd rfl (second next)
      | reduce q => by_cases same : p = q <;> simp [same, eq_comm]
      | accept => simp
    | accept =>
      cases new with
      | shift next => exact absurd rfl (second next)
      | reduce q => simp
      | accept => simp [eq_comm]
  | blocked h =>
    subst h
    rename_i p
    by_cases same : new = .reduce p <;> simp [same, eq_comm]

theorem meetAll_eq_ok_of_repeats (repeats : cell.Repeats d) (first : ∀ next, d ≠ .shift next)
    (noShift : ∀ next, .shift next ∉ ds) :
    grammar.meetAll i t cell ds = .ok cell' ↔ cell' = cell ∧ ∀ other ∈ ds, other = d := by
  induction ds with
  | nil => simp [meetAll, eq_comm]
  | cons new ds ih =>
    have others : ∀ next, .shift next ∉ ds := fun next h => noShift next (List.mem_cons_of_mem _ h)
    have second : ∀ next, new ≠ .shift next := fun next h => noShift next (h ▸ List.mem_cons_self)
    rw [meetAll_cons_eq_ok_iff, List.forall_mem_cons]
    constructor
    · rintro ⟨next, met, rest⟩
      obtain ⟨same, rfl⟩ := (meet_eq_ok_of_repeats repeats first second).mp met
      obtain ⟨cells, all⟩ := (ih others).mp rest
      exact ⟨cells, same, all⟩
    · rintro ⟨rfl, same, all⟩
      exact ⟨_, (meet_eq_ok_of_repeats repeats first second).mpr ⟨same, rfl⟩, (ih others).mpr ⟨rfl, all⟩⟩

/-- **Without a shift an empty cell is filled if all demands are one.** -/
theorem meetAll_empty_eq_ok_iff (noShift : ∀ next, .shift next ∉ ds) : grammar.meetAll i t .empty ds = .ok cell ↔
    ds = [] ∧ cell = .empty ∨ ∃ d ∈ ds, cell = .demand d ∧ ∀ other ∈ ds, other = d := by
  cases ds with
  | nil => simp [meetAll, eq_comm]
  | cons first ds =>
    have others : ∀ next, .shift next ∉ ds := fun next h => noShift next (List.mem_cons_of_mem _ h)
    have ne : ∀ next, first ≠ .shift next := fun next h => noShift next (h ▸ List.mem_cons_self)
    have met : grammar.meet i t .empty first = .ok (.demand first) := rfl
    rw [meetAll_cons_eq_ok_iff, met]
    constructor
    · rintro ⟨_, ⟨⟩, rest⟩
      obtain ⟨rfl, all⟩ := (meetAll_eq_ok_of_repeats .demand ne others).mp rest
      exact .inr ⟨first, List.mem_cons_self, rfl, List.forall_mem_cons.mpr ⟨rfl, all⟩⟩
    · rintro (⟨⟨⟩, -⟩ | ⟨d, -, rfl, all⟩)
      obtain ⟨rfl, all⟩ := List.forall_mem_cons.mp all
      exact ⟨_, rfl, (meetAll_eq_ok_of_repeats .demand ne others).mpr ⟨rfl, all⟩⟩

/-! ## Demands behind a shift -/

/-- Whether precedence decides between the shift of a terminal and a demand for the shift. -/
inductive GivesWay (grammar : Grammar α) (t target : Nat) : Demand → Prop
  | intro {p : Nat} (h : grammar.settle? t target p = some (.demand (.shift target))) :
      GivesWay grammar t target (.reduce p)

/-- Whether precedence decides between the shift of a terminal and a demand otherwise, and how. -/
inductive Prevails (grammar : Grammar α) (t target : Nat) (cell : Cell) : Demand → Prop
  | intro {p : Nat} (h : grammar.settle? t target p = some cell) (differs : cell ≠ .demand (.shift target)) :
      Prevails grammar t target cell (.reduce p)

theorem cell_of_decide {shift reduce : Precedence} (h : shift.decide reduce target p = cell) :
    cell = .demand (.shift target) ∨ cell.Repeats (.reduce p) := by
  subst h
  rw [Precedence.decide]
  split
  · exact .inr .demand
  · exact .inl rfl
  · split
    · exact .inr .demand
    · exact .inl rfl
    · exact .inr (.blocked rfl)

/-- What precedence settles goes to the shift, or is taken or blocked by the reduction. -/
theorem cell_of_settle? (h : grammar.settle? t target p = some cell) :
    cell = .demand (.shift target) ∨ cell.Repeats (.reduce p) := by
  simp only [settle?, Option.bind_eq_bind, Option.bind_eq_some_iff] at h
  obtain ⟨_, -, shift, -, _, -, reduce, -, h⟩ := h
  exact cell_of_decide (Option.some.inj h)

theorem Prevails.repeats (h : grammar.Prevails t target cell d) : cell.Repeats d := by
  obtain ⟨settled, differs⟩ := h
  exact (cell_of_settle? settled).resolve_left differs

theorem Prevails.not_givesWay (h : grammar.Prevails t target cell d) : ¬grammar.GivesWay t target d := by
  obtain ⟨settled, differs⟩ := h
  rintro ⟨way⟩
  exact differs (Option.some.inj (settled.symm.trans way))

/-- A demand goes together with a shift if it gives way or prevails. -/
theorem meet_shift_eq_ok_iff (noShift : ∀ next, new ≠ .shift next) :
    grammar.meet i t (.demand (.shift target)) new = .ok cell ↔
      cell = .demand (.shift target) ∧ grammar.GivesWay t target new ∨ grammar.Prevails t target cell new := by
  cases new with
  | shift next => exact absurd rfl (noShift next)
  | accept =>
    refine iff_of_false (fun h => by cases h) fun h => ?_
    rcases h with ⟨-, h⟩ | h <;> cases h
  | reduce p =>
    rw [meet.eq_def]
    simp only
    cases settled : grammar.settle? t target p with
    | none =>
      refine iff_of_false (fun h => by cases h) fun h => ?_
      rcases h with ⟨-, ⟨h⟩⟩ | ⟨h, -⟩ <;> cases settled.symm.trans h
    | some settledCell =>
      simp only [Except.ok.injEq]
      constructor
      · rintro rfl
        by_cases way : settledCell = .demand (.shift target)
        · exact .inl ⟨way, .intro (way ▸ settled)⟩
        · exact .inr (.intro settled way)
      · rintro (⟨rfl, ⟨h⟩⟩ | ⟨h, -⟩) <;> exact Option.some.inj (settled.symm.trans h)

/-- **Behind a shift a cell is filled if what does not give way comes last**, once or over again. -/
theorem meetAll_shift_eq_ok_iff (noShift : ∀ next, .shift next ∉ ds) :
    grammar.meetAll i t (.demand (.shift target)) ds = .ok cell ↔
      cell = .demand (.shift target) ∧ (∀ d ∈ ds, grammar.GivesWay t target d) ∨
      ∃ front back d, ds = front ++ d :: back ∧ (∀ other ∈ front, grammar.GivesWay t target other) ∧
        grammar.Prevails t target cell d ∧ ∀ other ∈ back, other = d := by
  induction ds with
  | nil => simp [meetAll, eq_comm]
  | cons new ds ih =>
    have others : ∀ next, .shift next ∉ ds := fun next h => noShift next (List.mem_cons_of_mem _ h)
    have ne : ∀ next, new ≠ .shift next := fun next h => noShift next (h ▸ List.mem_cons_self)
    rw [meetAll_cons_eq_ok_iff]
    constructor
    · rintro ⟨next, met, rest⟩
      rcases (meet_shift_eq_ok_iff ne).mp met with ⟨rfl, way⟩ | prevails
      · rcases (ih others).mp rest with ⟨rfl, all⟩ | ⟨front, back, d, rfl, all, prevails, same⟩
        · exact .inl ⟨rfl, List.forall_mem_cons.mpr ⟨way, all⟩⟩
        · exact .inr ⟨new :: front, back, d, rfl, List.forall_mem_cons.mpr ⟨way, all⟩, prevails, same⟩
      · obtain ⟨rfl, all⟩ := (meetAll_eq_ok_of_repeats prevails.repeats ne others).mp rest
        exact .inr ⟨[], ds, new, rfl, nofun, prevails, all⟩
    · rintro (⟨rfl, all⟩ | ⟨front, back, d, split, all, prevails, same⟩)
      · obtain ⟨way, all⟩ := List.forall_mem_cons.mp all
        exact ⟨_, (meet_shift_eq_ok_iff ne).mpr (.inl ⟨rfl, way⟩), (ih others).mpr (.inl ⟨rfl, all⟩)⟩
      · cases front with
        | nil =>
          cases split
          exact ⟨cell, (meet_shift_eq_ok_iff ne).mpr (.inr prevails),
            (meetAll_eq_ok_of_repeats prevails.repeats ne others).mpr ⟨rfl, same⟩⟩
        | cons first front =>
          cases split
          obtain ⟨way, all⟩ := List.forall_mem_cons.mp all
          exact ⟨_, (meet_shift_eq_ok_iff ne).mpr (.inl ⟨rfl, way⟩),
            (ih others).mpr (.inr ⟨front, back, d, rfl, all, prevails, same⟩)⟩

end Grammar

/-! ## Cells of states -/

namespace Cfg
variable {cfg : Cfg} {state : State} {t : Nat} {d : Demand}

/-- What the items of a state ask for in front of a terminal, in order. -/
def competing (cfg : Cfg) (state : State) (t : Nat) : List Demand :=
  demandsOn t (state.items.items.flatMap cfg.itemDemands)

theorem mem_competing_iff :
    d ∈ cfg.competing state t ↔ (t, d) ∈ cfg.demands state ∧ ∀ next, d ≠ .shift next := by
  rw [competing, mem_demandsOn, List.mem_flatMap, mem_demands]
  constructor
  · rintro ⟨item, hm, h⟩
    refine ⟨.inr ⟨item, hm, h⟩, ?_⟩
    rintro next rfl
    rcases mem_itemDemands.mp h with ⟨-, ⟨-, -, same⟩ | ⟨-, -, same⟩⟩ <;> cases same
  · rintro ⟨⟨next, -, rfl⟩ | asked, noShift⟩
    · exact absurd rfl (noShift next)
    · exact asked

theorem shift_not_mem_competing (next : Nat) : .shift next ∉ cfg.competing state t := fun h =>
  (mem_competing_iff.mp h).2 next rfl

theorem demandsOn_filterMap_shiftDemand? {transitions : List (Symbol × Nat)}
    (nodup : (transitions.map Prod.fst).Nodup) : demandsOn t (transitions.filterMap shiftDemand?) =
      ((transitions.lookup (.terminal t)).map Demand.shift).toList := by
  have none {transitions : List (Symbol × Nat)} (absent : Symbol.terminal t ∉ transitions.map Prod.fst) :
      demandsOn t (transitions.filterMap shiftDemand?) = [] := by
    refine List.eq_nil_iff_forall_not_mem.mpr fun d hd => absent ?_
    obtain ⟨⟨symbol, next⟩, hm, h⟩ := List.mem_filterMap.mp (mem_demandsOn.mp hd)
    cases symbol with
    | nonTerminal n => cases h
    | terminal u =>
      cases h
      exact List.mem_map_of_mem hm
  induction transitions with
  | nil => rfl
  | cons first transitions ih =>
    obtain ⟨symbol, next⟩ := first
    obtain ⟨absent, others⟩ := List.nodup_cons.mp nodup
    rw [lookup_cons_if]
    cases symbol with
    | nonTerminal n =>
      rw [if_neg nofun, ← ih others]
      rfl
    | terminal u =>
      rw [List.filterMap_cons_some (show shiftDemand? (.terminal u, next) = some (u, .shift next) from rfl)]
      by_cases same : u = t
      · subst same
        rw [if_pos rfl, demandsOn_cons_self, none absent]
        rfl
      · rw [if_neg fun h => same (Symbol.terminal.inj h).symm, demandsOn_cons_of_ne same, ih others]

/-- The shift comes first, and then what the items ask for. -/
theorem demandsOn_demands (nodup : (state.transitions.map Prod.fst).Nodup) : demandsOn t (cfg.demands state) =
    ((state.transitions.lookup (.terminal t)).map Demand.shift).toList ++ cfg.competing state t := by
  rw [demands, demandsOn_append, demandsOn_filterMap_shiftDemand? nodup, competing]

end Cfg

namespace Grammar
variable {α : Type} {grammar : Grammar α} {states : List State} {state : State} {i t : Nat}

/-- The cell of a terminal in a state with the shift, if there is one, and then some other demands. -/
def cellOf (grammar : Grammar α) (i t : Nat) (shift? : Option Nat) (ds : List Demand) : Except Conflict Cell :=
  grammar.meetAll i t .empty ((shift?.map Demand.shift).toList ++ ds)

theorem cellOf_none (ds : List Demand) : grammar.cellOf i t none ds = grammar.meetAll i t .empty ds := rfl

theorem cellOf_some (target : Nat) (ds : List Demand) :
    grammar.cellOf i t (some target) ds = grammar.meetAll i t (.demand (.shift target)) ds := rfl

/-- The cell of a terminal in a state. -/
def cellAt (grammar : Grammar α) (i : Nat) (state : State) (t : Nat) : Except Conflict Cell :=
  grammar.cellOf i t (state.transitions.lookup (.terminal t)) (grammar.cfg.competing state t)

theorem meetAll_demandsOn (nodup : (state.transitions.map Prod.fst).Nodup) :
    grammar.meetAll i t .empty (demandsOn t (grammar.cfg.demands state)) = grammar.cellAt i state t := by
  rw [Cfg.demandsOn_demands nodup, cellAt, cellOf]

/-- The cell of a terminal in a row without demands. -/
theorem getD_replicate_empty (n t : Nat) : (Array.replicate n Cell.empty).getD t .empty = .empty := by
  rw [Array.getD_eq_getD_getElem?, Array.getElem?_replicate]
  split <;> rfl

/-- A row is filled if every cell of its state is. -/
theorem exists_fillRow_iff (nodup : (state.transitions.map Prod.fst).Nodup) :
    (∃ row, grammar.fillRow i state = .ok row) ↔
      ∀ t < grammar.terminals.length, ∃ cell, grammar.cellAt i state t = .ok cell := by
  have cells : (∃ cells, grammar.fillFrom i (Array.replicate grammar.terminals.length .empty)
      (grammar.cfg.demands state) = .ok cells) ↔ _ := exists_fillFrom_iff
  simp only [getD_replicate_empty, meetAll_demandsOn nodup, Array.size_replicate] at cells
  rw [← cells]
  constructor
  · rintro ⟨row, h⟩
    obtain ⟨cells, h, -⟩ := Except.bind_eq_ok_iff.mp h
    exact ⟨cells, h⟩
  · exact fun ⟨cells, h⟩ => ⟨_, Except.bind_eq_ok_iff.mpr ⟨cells, h, rfl⟩⟩

/-- Where a row cannot be filled, a cell of its state cannot. -/
theorem exists_of_fillRow_eq_error {conflict : Conflict} (nodup : (state.transitions.map Prod.fst).Nodup)
    (h : grammar.fillRow i state = .error conflict) :
    ∃ t < grammar.terminals.length, grammar.cellAt i state t = .error conflict := by
  rcases Except.bind_eq_error_iff.mp h with fails | ⟨cells, -, h⟩
  · obtain ⟨t, bound, fails⟩ := exists_of_fillFrom_eq_error fails
    rw [getD_replicate_empty, meetAll_demandsOn nodup] at fails
    exact ⟨t, by rwa [Array.size_replicate] at bound, fails⟩
  · cases h

/-- **There is a table if every cell of every state is filled.** -/
theorem exists_tableOf_iff (nodup : ∀ state ∈ states, (state.transitions.map Prod.fst).Nodup) :
    (∃ table, grammar.tableOf states = .ok table) ↔ ∀ (i : Nat) state, states[i]? = some state →
      ∀ t < grammar.terminals.length, ∃ cell, grammar.cellAt i state t = .ok cell := by
  constructor
  · rintro ⟨table, h⟩ i state hs
    obtain ⟨cells, -, h, -⟩ := exists_cells h hs
    exact (exists_fillRow_iff (nodup state (List.mem_of_getElem? hs))).mp
      ⟨_, Except.bind_eq_ok_iff.mpr ⟨cells, h, rfl⟩⟩
  · intro h
    have rows : ∀ place ∈ states.zipIdx, ∃ row, grammar.fillRow place.2 place.1 = .ok row := by
      rintro ⟨state, i⟩ hm
      have hs := List.mem_zipIdx_iff_getElem?.mp hm
      exact (exists_fillRow_iff (nodup state (List.mem_of_getElem? hs))).mpr (h i state hs)
    obtain ⟨rows, hrows⟩ := Except.exists_mapM_eq_ok rows
    exact ⟨_, Except.bind_eq_ok_iff.mpr ⟨rows, hrows, rfl⟩⟩

/-- **What a table does is what the cell says.** -/
theorem get_eq_actionOf {table : ParserTable} (h : grammar.tableOf states = .ok table) (hs : states[i]? = some state)
    (nodup : (state.transitions.map Prod.fst).Nodup) (bound : t < grammar.terminals.length) :
    ∃ cell, grammar.cellAt i state t = .ok cell ∧
      table.actions.get i t = Cfg.actionOf (grammar.cfg.reductions states) cell := by
  obtain ⟨cells, -, filled, actions⟩ := exists_cells h hs
  have cell := meetAll_of_fillFrom filled (t := t) (by rwa [Array.size_replicate])
  rw [getD_replicate_empty, meetAll_demandsOn nodup] at cell
  exact ⟨_, cell, actions t⟩

end Grammar
end TableParsing
