import TableParsing.Proofs.Table.Order

/-! # What cells come to

A cell can be told from what its state asks for in front of its terminal, whatever the order.  If that is one thing,
the cell comes to it (`cellAt_of_only`).  If it is a shift and a reduction, the cell comes to what precedence settles
between them (`cellAt_of_settled`).  If it is nothing, the cell is empty. -/

namespace TableParsing

open Collection (State)

namespace Grammar
variable {α : Type} {grammar : Grammar α} {mergeCores : Bool} {state : State} {i t target p : Nat} {cell : Cell}
  {d : Demand} {ds : List Demand}

/-- Behind a shift a reduction comes to what precedence settles, once or over again. -/
theorem meetAll_shift_of_settled (settled : grammar.settle? t target p = some cell) (hd : .reduce p ∈ ds)
    (same : ∀ other ∈ ds, other = .reduce p) : grammar.meetAll i t (.demand (.shift target)) ds = .ok cell := by
  have noShift : ∀ next, .shift next ∉ ds := fun next h => nomatch same _ h
  by_cases way : cell = .demand (.shift target)
  · exact (meetAll_shift_eq_ok_iff noShift).mpr (.inl ⟨way, fun d hd => same d hd ▸ .intro (way ▸ settled)⟩)
  · exact (meetAll_shift_eq_ok_iff noShift).mpr (.inr (split_of_forall_eq (.intro settled way) hd same))

section Cells
variable (nodup : (state.transitions.map Prod.fst).Nodup)
include nodup

theorem lookup_of_shift (shift : (t, .shift target) ∈ grammar.cfg.demands state) :
    state.transitions.lookup (.terminal t) = some target :=
  lookup_eq_some_of_mem nodup (Cfg.shift_mem_demands.mp shift)

/-- **A cell comes to what is asked for alone.** -/
theorem cellAt_of_only (hd : (t, d) ∈ grammar.cfg.demands state)
    (only : ∀ e, (t, e) ∈ grammar.cfg.demands state → e = d) : grammar.cellAt i state t = .ok (.demand d) := by
  have same (e : Demand) (he : e ∈ grammar.cfg.competing state t) : e = d := only e (Cfg.mem_competing_iff.mp he).1
  by_cases shift : ∃ target, d = .shift target
  · obtain ⟨target, rfl⟩ := shift
    have none : grammar.cfg.competing state t = [] := List.eq_nil_iff_forall_not_mem.mpr fun e he =>
      Cfg.shift_not_mem_competing target (same e he ▸ he)
    rw [cellAt, lookup_of_shift nodup hd, none]
    rfl
  · have unled : state.transitions.lookup (.terminal t) = none :=
      Option.eq_none_iff_forall_ne_some.mpr fun target leads =>
        shift ⟨target, (only _ (Cfg.shift_mem_of_lookup leads)).symm⟩
    have competes : d ∈ grammar.cfg.competing state t :=
      Cfg.mem_competing_iff.mpr ⟨hd, fun target same => shift ⟨target, same⟩⟩
    rw [cellAt, unled, cellOf_none, meetAll_empty_eq_ok_iff Cfg.shift_not_mem_competing]
    exact .inr ⟨d, competes, rfl, same⟩

/-- **A cell comes to what precedence settles between a shift and a reduction.** -/
theorem cellAt_of_settled (shift : (t, .shift target) ∈ grammar.cfg.demands state)
    (reduce : (t, .reduce p) ∈ grammar.cfg.demands state)
    (only : ∀ e, (t, e) ∈ grammar.cfg.demands state → e = .shift target ∨ e = .reduce p)
    (settled : grammar.settle? t target p = some cell) : grammar.cellAt i state t = .ok cell := by
  have competes : .reduce p ∈ grammar.cfg.competing state t := Cfg.mem_competing_iff.mpr ⟨reduce, nofun⟩
  rw [cellAt, lookup_of_shift nodup shift, cellOf_some]
  refine meetAll_shift_of_settled settled competes fun e he => ?_
  exact (only e (Cfg.mem_competing_iff.mp he).1).resolve_left fun same => Cfg.shift_not_mem_competing target (same ▸ he)

omit nodup in
/-- A cell that nothing is asked for in is empty. -/
theorem cellAt_of_none (none : ∀ e, (t, e) ∉ grammar.cfg.demands state) : grammar.cellAt i state t = .ok .empty := by
  have unled : state.transitions.lookup (.terminal t) = .none :=
    Option.eq_none_iff_forall_ne_some.mpr fun target leads => none _ (Cfg.shift_mem_of_lookup leads)
  have alone : grammar.cfg.competing state t = [] := List.eq_nil_iff_forall_not_mem.mpr fun e he =>
    none e (Cfg.mem_competing_iff.mp he).1
  rw [cellAt, unled, alone]
  rfl

end Cells

/-! ## Actions -/

/-- The machine of a parser does what the cells of its states say. -/
theorem action_of_cellAt [Inhabited α] {options : ParserOptions} {parser : Parser α}
    (compiled : (grammar.toParser options).run.value = .ok parser) (wf : grammar.cfg.WellFormed)
    (hs : (grammar.cfg.collection options.mergeCores)[i]? = some state) (known : t < grammar.terminals.length)
    (filled : grammar.cellAt i state t = .ok cell) : parser.machine.action i t =
      Cfg.actionOf (grammar.cfg.reductions (grammar.cfg.collection options.mergeCores)) cell := by
  obtain ⟨table, built, machine⟩ := Grammar.table_of_toParser compiled
  have sound := (Cfg.isAutomaton_collection wf options.mergeCores).sound i state hs
  obtain ⟨cell', filled', action⟩ := get_eq_actionOf built hs sound.nodup known
  cases filled.symm.trans filled'
  rw [machine]
  exact action

end Grammar
end TableParsing
