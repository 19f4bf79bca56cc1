import TableParsing.Proofs.Operators.Automaton
import TableParsing.Proofs.Operators.Climbing
import TableParsing.Proofs.Table.Unmerged

/-! # Tables of expressions

What the state of a place asks for in front of a terminal is known (`Cfg.Demanded`).  Only the shift of an operator and
the reduction of the operator in front of it come together, and precedence settles between the two: the operator in
front takes what stands between them, or it awaits the other one, or they clash.  So **grammars of expressions have
tables** if every operator has a precedence (`IsRanked.exists_table`), and what the tables do in each place is known. -/

namespace TableParsing

open Collection (State)

/-! ## What precedence settles -/

namespace Precedence
variable {left right : Precedence} {target p : Nat}

theorem decide_of_takes (h : left.Takes right) : right.decide left target p = .demand (.reduce p) := by
  rcases h with lt | ⟨level, associativity⟩
  · rw [decide, Nat.compare_eq_gt.mpr lt]
  · rw [decide, Nat.compare_eq_eq.mpr level, associativity]

theorem decide_of_awaits (h : left.Awaits right) : right.decide left target p = .demand (.shift target) := by
  rcases h with lt | ⟨level, associativity⟩
  · rw [decide, Nat.compare_eq_lt.mpr lt]
  · rw [decide, Nat.compare_eq_eq.mpr level, associativity]

theorem decide_of_clashes (h : left.Clashes right) : right.decide left target p = .blocked p := by
  rw [decide, Nat.compare_eq_eq.mpr h.1, h.2]

end Precedence

/-! ## Demands -/

namespace Cfg

/-- What the state of a place asks for in front of a terminal. -/
inductive Demanded (cfg : Cfg) (operand : Nat) (operators : List Nat) : Place → Nat → Demand → Prop
  | operand {waiting : List Nat} {target : Nat} :
      Demanded cfg operand operators (.expecting waiting) operand (.shift target)
  | operator {waiting : List Nat} {o target : Nat} (ho : o ∈ operators) :
      Demanded cfg operand operators (.expression waiting) o (.shift target)
  | accept : Demanded cfg operand operators (.expression []) endTerminal .accept
  | reduceOperand {waiting : List Nat} {p t : Nat} (hp : cfg.rules[p]? = some (cfg.operandRule operand)) :
      Demanded cfg operand operators (.operand waiting) t (.reduce p)
  | reduceOperator {waiting : List Nat} {o p t : Nat} (hp : cfg.rules[p]? = some (cfg.operatorRule o)) :
      Demanded cfg operand operators (.expression (o :: waiting)) t (.reduce p)

variable {cfg : Cfg} {operand p t target : Nat} {operators : List Nat} {place : Place} {core : Core} {rule : Rule}

/-- No rule has the number of the one that derives the start symbol. -/
theorem ne_augmented (hp : cfg.rules[p]? = some rule) : p ≠ cfg.augmented := by
  rintro rfl
  rw [augmented, Array.getElem?_eq_none (Nat.le_refl _)] at hp
  cases hp

section Rules
variable (h : cfg.IsExpressions operand operators)
include h

theorem Holds.demands_shift (holds : cfg.Holds operand place core) (next : cfg.nextSymbol? core = some (.terminal t)) :
    cfg.Demanded operand operators place t (.shift target) := by
  cases holds with
  | start | accept =>
    rw [nextSymbol?, symbolsOf_augmented] at next
    cases next
  | @begin _ p rule hp =>
    rw [nextSymbol?, symbolsOf_rule hp] at next
    rcases h.rule_eq p rule hp with rfl | ⟨o, -, rfl⟩
    · cases next
      exact .operand
    · cases next
  | left hp =>
    rw [nextSymbol?, symbolsOf_rule hp] at next
    cases next
    exact .operator (h.mem_operators hp)
  | operand hp | operator hp | right hp =>
    rw [nextSymbol?, symbolsOf_rule hp] at next
    cases next

theorem Holds.demands_reduce (holds : cfg.Holds operand place core) (hp : cfg.rules[core.production]? = some rule)
    (complete : core.dot = rule.symbols.length) :
    cfg.Demanded operand operators place t (.reduce core.production) := by
  cases holds with
  | start | accept => exact absurd rfl (ne_augmented hp)
  | begin => rcases h.rule_eq _ rule hp with rfl | ⟨o, -, rfl⟩ <;> cases complete
  | operand => exact .reduceOperand ‹_›
  | right => exact .reduceOperator ‹_›
  | left hp' | operator hp' =>
    cases hp.symm.trans hp'
    cases complete

omit h in
theorem Holds.demands_accept (holds : cfg.Holds operand place ⟨cfg.augmented, 1⟩) :
    cfg.Demanded operand operators place endTerminal .accept := by
  generalize hcore : (⟨cfg.augmented, 1⟩ : Core) = core at holds
  cases holds with
  | accept => exact .accept
  | operand hp | left hp => exact absurd (congrArg Core.production hcore).symm (ne_augmented hp)
  | start | begin | operator | right => cases congrArg Core.dot hcore

end Rules
end Cfg

namespace Grammar
variable {α : Type} {grammar : Grammar α} {mergeCores : Bool} {operand i o p t target : Nat}
  {operators waiting : List Nat} {place : Cfg.Place} {state : State} {d e : Demand}

theorem exists_production_of_rule {rule : Rule} (hp : grammar.cfg.rules[p]? = some rule) :
    ∃ production, grammar.productions[p]? = some production ∧ production.symbols = rule.symbols := by
  have known : (grammar.cfg.resultOf? p).isSome :=
    Option.isSome_iff_exists.mpr ⟨_, Cfg.resultOf?_eq_some_iff.mpr ⟨rule, hp, rfl⟩⟩
  obtain ⟨production, there⟩ := exists_production_of_resultOf? known
  exact ⟨production, there, congrArg Rule.symbols (Option.some.inj ((getElem?_rules there).symm.trans hp))⟩

/-- **Nothing else is asked for in a place.** -/
theorem demanded (wf : grammar.cfg.WellFormed) (h : grammar.cfg.IsExpressions operand operators)
    (after : Cfg.stateAfter (grammar.cfg.collection mergeCores) (place.word grammar.cfg operand) = some i)
    (hs : (grammar.cfg.collection mergeCores)[i]? = some state) (hd : (t, d) ∈ grammar.cfg.demands state) :
    grammar.cfg.Demanded operand operators place t d := by
  have automaton := Cfg.isAutomaton_collection wf mergeCores
  have sound := automaton.sound i state hs
  obtain ⟨state', hs', follows⟩ := automaton.follows after
  cases hs.symm.trans hs'
  cases d with
  | shift target =>
    have leads := lookup_of_shift sound.nodup hd
    obtain ⟨core, viable, next⟩ := (automaton.exists_lookup_iff hs follows.spells).mp ⟨target, leads⟩
    exact (viable.holds h).demands_shift h next
  | reduce p =>
    obtain ⟨rule, hp, allows⟩ := (Cfg.reduce_mem_demands_iff_allows sound.isClosure.fits).mp hd
    have viable := (follows.has_iff _).mp allows.has
    exact (viable.holds h).demands_reduce h hp rfl
  | accept =>
    obtain ⟨rfl, has⟩ := (accept_mem_demands_iff_has sound.isClosure.fits).mp hd
    have viable := (follows.has_iff _).mp has
    exact (viable.holds h).demands_accept

/-! ## Cells -/

/-- Whether a grammar is one of expressions in which every operator has a precedence, and its production the same. -/
structure IsRanked (grammar : Grammar α) (operand : Nat) (operators : List Nat) (precedence : Nat → Precedence) :
    Prop where
  isExpressions : grammar.cfg.IsExpressions operand operators
  shift : ∀ o ∈ operators, ∃ terminal, grammar.terminals[o]? = some terminal ∧ terminal.precedence = some (precedence o)
  reduce : ∀ o ∈ operators, ∀ (p : Nat) production, grammar.productions[p]? = some production →
    production.symbols = (grammar.cfg.operatorRule o).symbols → production.precedence = some (precedence o)

namespace IsRanked
variable {precedence : Nat → Precedence} (h : grammar.IsRanked operand operators precedence)
include h

theorem settle?_eq {o : Nat} (ht : t ∈ operators) (hp : grammar.cfg.rules[p]? = some (grammar.cfg.operatorRule o)) :
    grammar.settle? t target p = some ((precedence t).decide (precedence o) target p) := by
  obtain ⟨terminal, there, shift⟩ := h.shift t ht
  obtain ⟨production, there', same⟩ := exists_production_of_rule hp
  have reduce := h.reduce o (h.isExpressions.mem_operators hp) p production there' same
  exact settle?_eq_some_iff.mpr ⟨terminal, _, production, _, there, shift, there', reduce, rfl⟩

/-- What is asked for together is the same, but for shifts of operators. -/
theorem eq_of_demanded (hd : grammar.cfg.Demanded operand operators place t d)
    (he : grammar.cfg.Demanded operand operators place t e) (noShift : ∀ target, d ≠ .shift target)
    (noShift' : ∀ target, e ≠ .shift target) : e = d := by
  have unique := h.isExpressions.unique
  cases hd with
  | operand | operator => exact absurd rfl (noShift _)
  | accept =>
    cases he with
    | operator => exact absurd rfl (noShift' _)
    | accept => rfl
  | reduceOperand hp =>
    cases he with
    | reduceOperand hp' => rw [unique _ _ _ hp hp']
  | reduceOperator hp =>
    cases he with
    | operator => exact absurd rfl (noShift' _)
    | reduceOperator hp' => rw [unique _ _ _ hp hp']

/-- What is asked for beside a shift is the reduction of an operator. -/
theorem exists_settle? (hd : grammar.cfg.Demanded operand operators place t (.shift target))
    (he : grammar.cfg.Demanded operand operators place t e) (noShift : ∀ target, e ≠ .shift target) :
    ∃ p cell, e = .reduce p ∧ grammar.settle? t target p = some cell := by
  cases hd with
  | operand =>
    cases he with
    | operand => exact absurd rfl (noShift _)
  | operator ho =>
    cases he with
    | operator => exact absurd rfl (noShift _)
    | accept => exact absurd ho h.isExpressions.end_notMem
    | reduceOperator hp => exact ⟨_, _, rfl, h.settle?_eq ho hp⟩

/-- **All demands of a state go together.** -/
theorem harmonious (wf : grammar.cfg.WellFormed) (hs : (grammar.cfg.collection mergeCores)[i]? = some state) :
    grammar.Harmonious t (grammar.cfg.competing state t) (state.transitions.lookup (.terminal t)) := by
  have automaton := Cfg.isAutomaton_collection wf mergeCores
  obtain ⟨word, after⟩ := Cfg.exists_stateAfter wf hs
  obtain ⟨state', hs', follows⟩ := automaton.follows after
  cases hs.symm.trans hs'
  obtain ⟨core, has⟩ := automaton.exists_core hs
  obtain ⟨place, rfl, -⟩ := ((follows.spells core).mp has).viable.exists_place h.isExpressions
  have asked {d : Demand} (hd : d ∈ grammar.cfg.competing state t) :
      grammar.cfg.Demanded operand operators place t d ∧ ∀ target, d ≠ .shift target :=
    (Cfg.mem_competing_iff.mp hd).imp_left (demanded wf h.isExpressions after hs)
  have same : ∀ d ∈ grammar.cfg.competing state t, ∀ e ∈ grammar.cfg.competing state t, e = d := fun d hd e he =>
    h.eq_of_demanded (asked hd).1 (asked he).1 (asked hd).2 (asked he).2
  cases leads : state.transitions.lookup (.terminal t) with
  | none => exact same
  | some target =>
    have shift := demanded wf h.isExpressions after hs (Cfg.shift_mem_of_lookup leads)
    by_cases alone : grammar.cfg.competing state t = []
    · exact .inl fun d hd => absurd (alone ▸ hd) List.not_mem_nil
    · obtain ⟨d, hd⟩ := List.exists_mem_of_ne_nil _ alone
      obtain ⟨p, cell, rfl, settled⟩ := h.exists_settle? shift (asked hd).1 (asked hd).2
      exact harmonious_of_settle? settled hd (same _ hd)

/-- **Grammars of expressions have tables.** -/
theorem exists_table (wf : grammar.cfg.WellFormed) (mergeCores : Bool) :
    ∃ table, grammar.table mergeCores = .ok table := by
  have automaton := Cfg.isAutomaton_collection wf mergeCores
  refine (exists_tableOf_iff fun state hm => ?_).mpr fun i state hs t _ => ?_
  · obtain ⟨i, hs⟩ := List.mem_iff_getElem?.mp hm
    exact (automaton.sound i state hs).nodup
  · exact (h.harmonious wf hs).exists_cellOf Cfg.shift_not_mem_competing

section Cells
variable (wf : grammar.cfg.WellFormed) (hs : (grammar.cfg.collection mergeCores)[i]? = some state)
include wf hs

/-- A cell comes to what is asked for, if nothing else is in its place. -/
theorem cellAt_of_alone (place : Cfg.Place)
    (after : Cfg.stateAfter (grammar.cfg.collection mergeCores) (place.word grammar.cfg operand) = some i)
    (hd : (t, d) ∈ grammar.cfg.demands state)
    (alone : ∀ e, grammar.cfg.Demanded operand operators place t e → e.aimless = d.aimless) :
    grammar.cellAt i state t = .ok (.demand d) := by
  have nodup := ((Cfg.isAutomaton_collection wf mergeCores).sound i state hs).nodup
  exact cellAt_of_only nodup hd fun e he =>
    Cfg.eq_of_aimless_eq nodup he hd (alone e (demanded wf h.isExpressions after hs he))

section Operators
variable (sub : ∀ o' ∈ o :: waiting, o' ∈ operators)
  (after : Cfg.stateAfter (grammar.cfg.collection mergeCores)
    (Cfg.Place.word grammar.cfg operand (.expression (o :: waiting))) = some i)
include sub after

omit h in
theorem reduce_mem (h : grammar.cfg.IsExpressions operand operators)
    (hp : grammar.cfg.rules[p]? = some (grammar.cfg.operatorRule o)) (closes : Cfg.Closes operators t) :
    (t, .reduce p) ∈ grammar.cfg.demands state := by
  obtain ⟨state', hs', follows⟩ := (Cfg.isAutomaton_collection wf mergeCores).follows after
  cases hs.symm.trans hs'
  have valid := h.valid_operator wf (fun o' ho => sub o' (List.mem_cons_of_mem _ ho)) hp closes
  exact Cfg.reduce_mem_of_allows hp (follows.allows _ _ valid)

/-- In front of another operator precedence decides. -/
theorem cellAt_operator (hp : grammar.cfg.rules[p]? = some (grammar.cfg.operatorRule o)) (ht : t ∈ operators)
    (shift : (t, .shift target) ∈ grammar.cfg.demands state) :
    grammar.cellAt i state t = .ok ((precedence t).decide (precedence o) target p) := by
  have nodup := ((Cfg.isAutomaton_collection wf mergeCores).sound i state hs).nodup
  have reduce := reduce_mem wf hs sub after h.isExpressions hp (.inr ht)
  refine cellAt_of_settled nodup shift reduce (fun e he => ?_) (h.settle?_eq ht hp)
  by_cases shifts : ∃ next, e = .shift next
  · obtain ⟨next, rfl⟩ := shifts
    exact .inl (Cfg.eq_of_aimless_eq nodup he shift rfl)
  · refine .inr (h.eq_of_demanded (.reduceOperator hp)
      (demanded wf h.isExpressions after hs he) nofun fun next same => shifts ⟨next, same⟩)

/-- **In front of another operator there is a cell, and precedence decides what it comes to.** -/
theorem exists_cellAt_operator (hp : grammar.cfg.rules[p]? = some (grammar.cfg.operatorRule o)) (ht : t ∈ operators) :
    ∃ target, grammar.cellAt i state t = .ok ((precedence t).decide (precedence o) target p) := by
  have automaton := Cfg.isAutomaton_collection wf mergeCores
  obtain ⟨state', hs', follows⟩ := automaton.follows after
  cases hs.symm.trans hs'
  obtain ⟨core, viable, next⟩ := h.isExpressions.exists_viable_operator wf sub ht
  obtain ⟨target, leads⟩ := (automaton.exists_lookup_iff hs follows.spells).mpr ⟨core, viable, next⟩
  exact ⟨target, h.cellAt_operator wf hs sub after hp ht (Cfg.shift_mem_of_lookup leads)⟩

/-- In front of the end the operator is done. -/
theorem cellAt_end (hp : grammar.cfg.rules[p]? = some (grammar.cfg.operatorRule o)) :
    grammar.cellAt i state endTerminal = .ok (.demand (.reduce p)) := by
  refine h.cellAt_of_alone wf hs (.expression (o :: waiting)) after
    (reduce_mem wf hs sub after h.isExpressions hp (.inl rfl)) fun e he => ?_
  generalize ht : endTerminal = t at he
  cases he with
  | operator ho => exact absurd (ht ▸ ho) h.isExpressions.end_notMem
  | reduceOperator hp' => rw [h.isExpressions.unique _ _ _ hp hp']

end Operators
end Cells
end IsRanked
end Grammar
end TableParsing
