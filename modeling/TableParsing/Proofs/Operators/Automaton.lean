import TableParsing.Proofs.Lr.Following
import TableParsing.Proofs.Lr.Reached
import TableParsing.Proofs.Table.Verdicts

/-! # The automaton of expressions

An expression is an operand, or two expressions with an operator between them.  A word of the automaton stands in one of
three **places** (`Cfg.Place`): where an operand is to come, behind an operand, or behind an expression.  The operators
that wait in front of it tell the rest of the word.  So however many operators there are, the cores that a word leads to
are known (`Viable.exists_place`), and what its state asks for in front of a terminal (`demanded`): nothing but **the
shift of an operator and the reduction of the one in front** ever come together. -/

namespace TableParsing

open Collection (State)

namespace Cfg

/-- The symbol of expressions. -/
abbrev expression (cfg : Cfg) : Symbol := .nonTerminal cfg.start

/-- The rule of expressions that are an operand. -/
abbrev operandRule (cfg : Cfg) (operand : Nat) : Rule := ⟨cfg.start, [.terminal operand]⟩

/-- The rule of expressions with an operator. -/
abbrev operatorRule (cfg : Cfg) (o : Nat) : Rule := ⟨cfg.start, [cfg.expression, .terminal o, cfg.expression]⟩

/-- Whether the rules are those of expressions, each of them once. -/
structure IsExpressions (cfg : Cfg) (operand : Nat) (operators : List Nat) : Prop where
  rule_eq : ∀ (p : Nat) rule, cfg.rules[p]? = some rule →
    rule = cfg.operandRule operand ∨ ∃ o ∈ operators, rule = cfg.operatorRule o
  exists_operand : ∃ p : Nat, cfg.rules[p]? = some (cfg.operandRule operand)
  exists_operator : ∀ o ∈ operators, ∃ p : Nat, cfg.rules[p]? = some (cfg.operatorRule o)
  unique : ∀ (p q : Nat) rule, cfg.rules[p]? = some rule → cfg.rules[q]? = some rule → p = q
  end_notMem : endTerminal ∉ operators

/-! ## Places -/

/-- Where a word stands, with the operators that wait, the latest first. -/
inductive Place
  /-- An operand is to come. -/
  | expecting (waiting : List Nat)
  /-- Behind an operand. -/
  | operand (waiting : List Nat)
  /-- Behind an expression. -/
  | expression (waiting : List Nat)

/-- The word of operators that wait, with the expressions in front of them. -/
def context (cfg : Cfg) : List Nat → List Symbol
  | [] => []
  | o :: waiting => .terminal o :: cfg.expression :: cfg.context waiting

/-- The word that stands in a place. -/
def Place.word (cfg : Cfg) (operand : Nat) : Place → List Symbol
  | .expecting waiting => cfg.context waiting
  | .operand waiting => .terminal operand :: cfg.context waiting
  | .expression waiting => cfg.expression :: cfg.context waiting

/-- Whether a terminal may come behind an expression. -/
def Closes (operators : List Nat) (t : Nat) : Prop := t = endTerminal ∨ t ∈ operators

/-- The cores of a place. -/
inductive Holds (cfg : Cfg) (operand : Nat) : Place → Core → Prop
  | start : Holds cfg operand (.expecting []) ⟨cfg.augmented, 0⟩
  | begin {waiting : List Nat} {p : Nat} {rule : Rule} (hp : cfg.rules[p]? = some rule) :
      Holds cfg operand (.expecting waiting) ⟨p, 0⟩
  | operand {waiting : List Nat} {p : Nat} (hp : cfg.rules[p]? = some (cfg.operandRule operand)) :
      Holds cfg operand (.operand waiting) ⟨p, 1⟩
  | accept : Holds cfg operand (.expression []) ⟨cfg.augmented, 1⟩
  | left {waiting : List Nat} {p o : Nat} (hp : cfg.rules[p]? = some (cfg.operatorRule o)) :
      Holds cfg operand (.expression waiting) ⟨p, 1⟩
  | operator {waiting : List Nat} {p o : Nat} (hp : cfg.rules[p]? = some (cfg.operatorRule o)) :
      Holds cfg operand (.expecting (o :: waiting)) ⟨p, 2⟩
  | right {waiting : List Nat} {p o : Nat} (hp : cfg.rules[p]? = some (cfg.operatorRule o)) :
      Holds cfg operand (.expression (o :: waiting)) ⟨p, 3⟩

variable {cfg : Cfg} {operand : Nat} {operators waiting : List Nat} {place : Place} {core : Core} {rule : Rule}
  {symbol : Symbol} {word : List Symbol} {p t : Nat}

theorem context_injective : Function.Injective cfg.context := by
  intro waiting others same
  induction waiting generalizing others with
  | nil =>
    cases others with
    | nil => rfl
    | cons o others => cases same
  | cons o waiting ih =>
    cases others with
    | nil => cases same
    | cons o' others =>
      obtain ⟨same, rest⟩ := List.cons.inj same
      cases same
      rw [ih (List.cons.inj rest).2]

theorem expression_ne_context : cfg.expression :: word ≠ cfg.context waiting := by
  cases waiting <;> exact nofun

theorem Place.word_injective : Function.Injective (Place.word cfg operand) := by
  rintro (waiting | waiting | waiting) (others | others | others) same
  · rw [context_injective same]
  · cases waiting with
    | nil => cases same
    | cons o waiting => exact absurd (List.cons.inj same).2 expression_ne_context
  · exact absurd same.symm expression_ne_context
  · cases others with
    | nil => cases same
    | cons o others => exact absurd (List.cons.inj same).2.symm expression_ne_context
  · rw [context_injective (List.cons.inj same).2]
  · cases same
  · exact absurd same expression_ne_context
  · cases same
  · rw [context_injective (List.cons.inj same).2]

/-! ## Cores of words -/

/-- Expressions are asked for where an operand is to come. -/
theorem Holds.exists_expecting {n : Nat} (holds : cfg.Holds operand place core)
    (next : cfg.nextSymbol? core = some (.nonTerminal n)) : ∃ waiting, place = .expecting waiting := by
  cases holds with
  | start | begin | operator => exact ⟨_, rfl⟩
  | accept =>
    rw [nextSymbol?, symbolsOf_augmented] at next
    cases next
  | operand hp | left hp | right hp =>
    rw [nextSymbol?, symbolsOf_rule hp] at next
    cases next

section Rules
variable (h : cfg.IsExpressions operand operators)
include h

theorem IsExpressions.mem_operators {o : Nat} (hp : cfg.rules[p]? = some (cfg.operatorRule o)) : o ∈ operators := by
  rcases h.rule_eq p _ hp with same | ⟨o', ho, same⟩
  · cases same
  · cases same
    exact ho

theorem IsExpressions.result_eq (hp : cfg.rules[p]? = some rule) : rule.result = cfg.start := by
  rcases h.rule_eq p _ hp with rfl | ⟨o, -, rfl⟩ <;> rfl

/-- Behind the next symbol a word stands in a place of its own. -/
theorem Holds.advance (holds : cfg.Holds operand place core) (next : cfg.nextSymbol? core = some symbol) :
    ∃ place', symbol :: place.word cfg operand = place'.word cfg operand ∧ cfg.Holds operand place' core.advance := by
  cases holds with
  | start =>
    rw [nextSymbol?, symbolsOf_augmented] at next
    cases next
    exact ⟨.expression [], rfl, .accept⟩
  | @begin waiting p rule hp =>
    rw [nextSymbol?, symbolsOf_rule hp] at next
    rcases h.rule_eq p rule hp with rfl | ⟨o, -, rfl⟩
    · cases next
      exact ⟨.operand waiting, rfl, .operand hp⟩
    · cases next
      exact ⟨.expression waiting, rfl, .left hp⟩
  | @left waiting p o hp =>
    rw [nextSymbol?, symbolsOf_rule hp] at next
    cases next
    exact ⟨.expecting (o :: waiting), rfl, .operator hp⟩
  | @operator waiting p o hp =>
    rw [nextSymbol?, symbolsOf_rule hp] at next
    cases next
    exact ⟨.expression (o :: waiting), rfl, .right hp⟩
  | accept =>
    rw [nextSymbol?, symbolsOf_augmented] at next
    cases next
  | operand hp | right hp =>
    rw [nextSymbol?, symbolsOf_rule hp] at next
    cases next

/-- **A word with a viable core stands in a place.** -/
theorem Viable.exists_place (viable : cfg.Viable word core) :
    ∃ place, word = place.word cfg operand ∧ cfg.Holds operand place core := by
  induction viable with
  | start => exact ⟨.expecting [], rfl, .start⟩
  | expand _ next hp ih =>
    obtain ⟨place, rfl, holds⟩ := ih
    obtain ⟨waiting, rfl⟩ := holds.exists_expecting next
    obtain ⟨rule, hr, -⟩ := resultOf?_eq_some_iff.mp (mem_productionsOf.mp hp)
    exact ⟨_, rfl, .begin hr⟩
  | advance _ next ih =>
    obtain ⟨place, rfl, holds⟩ := ih
    exact holds.advance h next

theorem Viable.holds (viable : cfg.Viable (place.word cfg operand) core) : cfg.Holds operand place core := by
  obtain ⟨place', same, holds⟩ := viable.exists_place h
  exact Place.word_injective same ▸ holds

/-- Behind an expression there come the end of the input and operators. -/
theorem Valid.closes (wf : cfg.WellFormed) (valid : cfg.Valid word core t) : Closes operators t := by
  induction valid with
  | start => exact .inl rfl
  | @first word core n p t viable next hp ht =>
    have starts := (contains_firstOf_iff wf).mp ht
    obtain ⟨place, rfl, holds⟩ := viable.exists_place h
    cases holds with
    | start | accept =>
      rw [nextSymbol?, symbolsOf_augmented] at next
      rw [behind, symbolsOf_augmented] at starts
      cases starts
    | operand hp | left hp | operator hp | right hp =>
      rw [nextSymbol?, symbolsOf_rule hp] at next
      rw [behind, symbolsOf_rule hp] at starts
      cases next <;> cases starts
    | @begin waiting p rule hp =>
      rw [behind, symbolsOf_rule hp] at starts
      rcases h.rule_eq p rule hp with rfl | ⟨o, ho, rfl⟩
      · cases starts
      · cases starts
        exact .inr ho
  | pass _ _ _ _ ih => exact ih
  | advance _ _ ih => exact ih

/-- **Where an operand is to come, there are all rules, and behind them all that may come behind an expression.** -/
theorem IsExpressions.valid_context (wf : cfg.WellFormed) (sub : ∀ o ∈ waiting, o ∈ operators)
    (hp : cfg.rules[p]? = some rule) (closes : Closes operators t) : cfg.Valid (cfg.context waiting) ⟨p, 0⟩ t := by
  have result := h.result_eq hp
  have atEnd : cfg.Valid (cfg.context waiting) ⟨p, 0⟩ endTerminal := by
    induction waiting generalizing p rule with
    | nil =>
      refine Valid.start.valid_of_vanishes wf hp ?_ ?_
      · rw [nextSymbol?, symbolsOf_augmented, result]
        rfl
      · rw [behind, symbolsOf_augmented]
        exact .nil
    | cons o waiting ih =>
      obtain ⟨q, hq⟩ := h.exists_operator o (sub o List.mem_cons_self)
      have before := ih (fun o' ho => sub o' (List.mem_cons_of_mem _ ho)) hq (h.result_eq hq)
      have ahead : cfg.ahead ⟨q, 0⟩ = [cfg.expression, .terminal o] ++ [cfg.expression] := ahead_zero hq
      have inside := before.over ahead
      obtain ⟨next, behind⟩ := next_of_ahead (ahead_over ahead)
      refine inside.valid_of_vanishes wf hp (result ▸ next) ?_
      rw [behind]
      exact .nil
  rcases closes with rfl | ho
  · exact atEnd
  · obtain ⟨q, hq⟩ := h.exists_operator t ho
    obtain ⟨next, behind⟩ := next_of_ahead (ahead_zero hq)
    refine (atEnd.sibling hp hq ((h.result_eq hq).trans result.symm)).viable.valid_of_starts wf hp (result ▸ next) ?_
    rw [behind]
    exact .terminal

section Waiting
variable (wf : cfg.WellFormed) (sub : ∀ o ∈ waiting, o ∈ operators)
include wf sub

theorem IsExpressions.valid_operand (hp : cfg.rules[p]? = some (cfg.operandRule operand))
    (closes : Closes operators t) :
    cfg.Valid (Place.word cfg operand (.operand waiting)) ⟨p, 1⟩ t := by
  have ahead : cfg.ahead ⟨p, 0⟩ = [.terminal operand] ++ [] := ahead_zero hp
  exact (h.valid_context wf sub hp closes).over ahead

theorem IsExpressions.valid_operator {o : Nat} (hp : cfg.rules[p]? = some (cfg.operatorRule o))
    (closes : Closes operators t) :
    cfg.Valid (Place.word cfg operand (.expression (o :: waiting))) ⟨p, 3⟩ t := by
  have ahead : cfg.ahead ⟨p, 0⟩ = [cfg.expression, .terminal o, cfg.expression] ++ [] := ahead_zero hp
  exact (h.valid_context wf sub hp closes).over ahead

theorem IsExpressions.exists_viable_operand : ∃ core, cfg.Viable (cfg.context waiting) core ∧
    cfg.nextSymbol? core = some (.terminal operand) := by
  obtain ⟨p, hp⟩ := h.exists_operand
  exact ⟨_, (h.valid_context wf sub hp (.inl rfl)).viable, (next_of_ahead (ahead_zero hp)).1⟩

theorem IsExpressions.exists_viable_operator {o : Nat} (ho : o ∈ operators) :
    ∃ core, cfg.Viable (cfg.expression :: cfg.context waiting) core ∧ cfg.nextSymbol? core = some (.terminal o) := by
  obtain ⟨p, hp⟩ := h.exists_operator o ho
  have viable := (h.valid_context wf sub hp (.inl rfl)).viable
  have next := next_of_ahead (ahead_zero hp)
  exact ⟨_, viable.advance next.1, (next_of_ahead ((ahead_advance).trans next.2)).1⟩

/-- Where an operand is to come, expressions lead on. -/
theorem IsExpressions.exists_viable_expression : ∃ core, cfg.Viable (cfg.context waiting) core ∧
    cfg.nextSymbol? core = some cfg.expression := by
  cases waiting with
  | nil => exact ⟨_, .start, by rw [nextSymbol?, symbolsOf_augmented]; rfl⟩
  | cons o waiting =>
    obtain ⟨p, hp⟩ := h.exists_operator o (sub o List.mem_cons_self)
    have before := h.valid_context wf (fun o' ho => sub o' (List.mem_cons_of_mem _ ho)) hp (.inl rfl)
    have ahead : cfg.ahead ⟨p, 0⟩ = [cfg.expression, .terminal o] ++ [cfg.expression] := ahead_zero hp
    exact ⟨_, before.viable.over ahead, (next_of_ahead (ahead_over ahead)).1⟩

end Waiting

end Rules

theorem viable_accept (operand : Nat) : cfg.Viable (Place.word cfg operand (.expression [])) ⟨cfg.augmented, 1⟩ :=
  Viable.start.advance (by rw [nextSymbol?, symbolsOf_augmented]; rfl)

end Cfg
end TableParsing
