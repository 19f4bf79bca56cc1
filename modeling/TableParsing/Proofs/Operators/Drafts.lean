import Mathlib.Data.List.Perm.Basic
import TableParsing.Proofs.Grammar.Declared
import TableParsing.Proofs.Operators.Table

/-! # Drafts of expressions

Each group of operators opens a level of its own, so **operators of one level group in the same way**
(`Declared.associativity_eq`).  A production without a lent precedence has that of its operator.  So a draft of
expressions whose operators have been grouped is finished to a grammar that has tables (`IsExpressions.isRanked`). -/

namespace TableParsing

variable {α : Type}

namespace GrammarDraft
variable {draft : GrammarDraft α} {t : Nat} {precedence : Precedence}

/-! ## Levels -/

/-- Whether one draft has the levels of another, and no more precedence. -/
structure RanksWithin (draft other : GrammarDraft α) : Prop where
  levels_eq : draft.levels = other.levels
  ranked : ∀ t precedence, draft.precedenceOf t = some precedence → other.precedenceOf t = some precedence

theorem RanksWithin.refl (draft : GrammarDraft α) : draft.RanksWithin draft := ⟨rfl, fun _ _ => id⟩

theorem RanksWithin.trans {other third : GrammarDraft α} (h : draft.RanksWithin other) (h' : other.RanksWithin third) :
    draft.RanksWithin third :=
  ⟨h.levels_eq.trans h'.levels_eq, fun t precedence ranked => h'.ranked t precedence (h.ranked t precedence ranked)⟩

/-- A new terminal has no precedence. -/
theorem ranksWithin_of_append {other : GrammarDraft α} {terminal : Terminal α} (levels : other.levels = draft.levels)
    (new : other.terminals = draft.terminals ++ [terminal]) (none : terminal.precedence = .none) :
    other.RanksWithin draft := by
  refine ⟨levels, fun t precedence ranked => ?_⟩
  rw [precedenceOf, new, List.getElem?_append] at ranked
  split at ranked
  · exact ranked
  · obtain ⟨last, there, ranked⟩ := Option.bind_eq_some_iff.mp ranked
    cases List.mem_singleton.mp (List.mem_of_getElem? there)
    cases none.symm.trans ranked

theorem ranksWithin_literal (draft : GrammarDraft α) (text : String) : (draft.literal text).1.RanksWithin draft := by
  rw [literal]
  split
  · exact .refl draft
  · exact ranksWithin_of_append rfl rfl rfl

theorem ranksWithin_resolve (draft : GrammarDraft α) (symbols : List WrittenSymbol) :
    (draft.resolve symbols).1.RanksWithin draft :=
  resolve_keeps (·.RanksWithin draft) (fun later h text => (later.ranksWithin_literal text).trans h) (.refl draft) symbols

/-- What is put into a group has its level, and all else keeps its own. -/
theorem precedenceOf_group {associativity : Associativity} {terminals : List Nat}
    (ranked : (draft.group associativity terminals).precedenceOf t = some precedence) :
    precedence = ⟨draft.levels + 1, associativity⟩ ∨ draft.precedenceOf t = some precedence := by
  let new : Precedence := ⟨draft.levels + 1, associativity⟩
  let put (all : List (Terminal α)) (u : Nat) : List (Terminal α) :=
    all.modify u fun terminal => { terminal with precedence := some new }
  suffices grouped : ∀ all : List (Terminal α), (terminals.foldl put all)[t]?.bind (·.precedence) = some precedence →
      precedence = new ∨ all[t]?.bind (·.precedence) = some precedence from grouped draft.terminals ranked
  clear ranked
  induction terminals with
  | nil => exact fun all ranked => .inr ranked
  | cons u terminals ih =>
    intro all ranked
    refine (ih (put all u) ranked).elim .inl fun ranked => ?_
    rw [List.getElem?_modify] at ranked
    obtain ⟨terminal, there, ranked⟩ := Option.bind_eq_some_iff.mp ranked
    obtain ⟨old, before, rfl⟩ := Option.map_eq_some_iff.mp there
    split at ranked
    · exact .inl (Option.some.inj ranked).symm
    · exact .inr (Option.bind_eq_some_iff.mpr ⟨old, before, ranked⟩)

/-- Whether there are no levels but those that groups have opened, and each of them groups in one way. -/
structure Levelled (draft : GrammarDraft α) : Prop where
  level_le : ∀ t precedence, draft.precedenceOf t = some precedence → precedence.level ≤ draft.levels
  associativity_eq : ∀ t precedence u other, draft.precedenceOf t = some precedence →
    draft.precedenceOf u = some other → precedence.level = other.level →
      precedence.associativity = other.associativity

theorem RanksWithin.levelled {other : GrammarDraft α} (h : other.RanksWithin draft) (levelled : draft.Levelled) :
    other.Levelled where
  level_le t precedence ranked := h.levels_eq ▸ levelled.level_le t precedence (h.ranked t precedence ranked)
  associativity_eq t precedence u other ranked ranked' :=
    levelled.associativity_eq t precedence u other (h.ranked _ _ ranked) (h.ranked _ _ ranked')

/-- **A group opens a level of its own.** -/
theorem Levelled.group (h : draft.Levelled) (associativity : Associativity) (terminals : List Nat) :
    (draft.group associativity terminals).Levelled where
  level_le t precedence ranked := by
    rcases precedenceOf_group ranked with rfl | ranked
    · exact Nat.le_refl _
    · exact Nat.le_succ_of_le (h.level_le t precedence ranked)
  associativity_eq t precedence u other ranked ranked' same := by
    rcases precedenceOf_group ranked with rfl | ranked <;> rcases precedenceOf_group ranked' with rfl | ranked'
    · rfl
    · exact absurd (same ▸ h.level_le u other ranked') (Nat.not_succ_le_self _)
    · exact absurd (same ▸ h.level_le t precedence ranked) (Nat.not_succ_le_self _)
    · exact h.associativity_eq t precedence u other ranked ranked' same

theorem Declared.levelled (h : draft.Declared) : draft.Levelled := by
  induction h with
  | empty =>
    have unranked (t : Nat) (precedence : Precedence) : ({} : GrammarDraft α).precedenceOf t ≠ some precedence := by
      match t with
      | 0 | 1 | _ + 2 => exact nofun
    exact ⟨fun t precedence ranked => absurd ranked (unranked t precedence),
      fun t precedence _ _ ranked => absurd ranked (unranked t precedence)⟩
  | @terminal draft h name regex value ih =>
    have within : (draft.terminal name regex value).1.RanksWithin draft := ranksWithin_of_append rfl rfl rfl
    exact within.levelled ih
  | @literal draft h text ih => exact (draft.ranksWithin_literal text).levelled ih
  | @production draft h result symbols action ih =>
    have within : (draft.production result symbols action).1.RanksWithin draft :=
      ⟨(draft.ranksWithin_resolve symbols).levels_eq, (draft.ranksWithin_resolve symbols).ranked⟩
    exact within.levelled ih
  | group h associativity terminals ih => exact ih.group associativity terminals
  | ignore h regex ih => exact ⟨ih.level_le, ih.associativity_eq⟩
  | nonTerminal h name ih => exact ⟨ih.level_le, ih.associativity_eq⟩
  | lendPrecedence h production terminal ih => exact ⟨ih.level_le, ih.associativity_eq⟩
  | start h n ih => exact ⟨ih.level_le, ih.associativity_eq⟩
  | lexerOptions h options ih => exact ⟨ih.level_le, ih.associativity_eq⟩

/-! ## Drafts of expressions -/

/-- An expression that is an operand. -/
def operandProduction (operand : Nat) (leaf : List α → α) : Production α where
  result := 0
  symbols := [.terminal operand]
  action := .ofValues leaf

/-- An expression with an operator. -/
def operatorProduction (node : Nat → List α → α) (o : Nat) : Production α where
  result := 0
  symbols := [.nonTerminal 0, .terminal o, .nonTerminal 0]
  action := .ofValues (node o)

theorem ownPrecedence_operatorProduction (draft : GrammarDraft α) (node : Nat → List α → α) (o : Nat) :
    draft.ownPrecedence (operatorProduction node o).symbols = draft.precedenceOf o := by
  cases ranked : draft.precedenceOf o <;> simp [ownPrecedence, operatorProduction, ranked]

/-- Whether a draft is one of expressions: of operands, and of two expressions with an operator between them, one
production for each operator.  Every operator has been grouped. -/
structure IsExpressions (draft : GrammarDraft α) (operand : Nat) (operators : List Nat) (leaf : List α → α)
    (node : Nat → List α → α) : Prop where
  nonTerminals : draft.nonTerminals.length = 1
  start : draft.start = some 0
  productions : draft.productions.Perm (operandProduction operand leaf :: operators.map (operatorProduction node))
  unlent : draft.lent = []
  nodup : operators.Nodup
  error_lt : ∀ t ∈ operand :: operators, errorTerminal < t
  operand_lt : operand < draft.terminals.length
  ranked : ∀ o ∈ operators, ∃ precedence, draft.precedenceOf o = some precedence

namespace IsExpressions
variable {operand : Nat} {operators : List Nat} {leaf : List α → α} {node : Nat → List α → α}
  (h : draft.IsExpressions operand operators leaf node)
include h

theorem mem_productions {production : Production α} : production ∈ draft.productions ↔
    production = operandProduction operand leaf ∨ ∃ o ∈ operators, production = operatorProduction node o := by
  rw [h.productions.mem_iff, List.mem_cons, List.mem_map]
  simp only [eq_comm]

theorem operator_lt {o : Nat} (ho : o ∈ operators) : o < draft.terminals.length := by
  obtain ⟨precedence, ranked⟩ := h.ranked o ho
  obtain ⟨terminal, there, -⟩ := Option.bind_eq_some_iff.mp ranked
  exact (List.getElem?_eq_some_iff.mp there).1

theorem checkNonTerminal_zero (place : SymbolPlace) : draft.checkNonTerminal place 0 = .ok () :=
  if_pos (h.nonTerminals ▸ Nat.one_pos)

theorem checkProduction {production : Production α} (hp : production ∈ draft.productions) (index : Nat) :
    draft.checkProduction index production = .ok () := by
  have expression := h.checkNonTerminal_zero (.production index)
  have terminal {t : Nat} (bound : t < draft.terminals.length) :
      draft.checkSymbol (.production index) (.terminal t) = .ok () := if_pos bound
  rcases h.mem_productions.mp hp with rfl | ⟨o, ho, rfl⟩
  · refine Except.bind_eq_ok_iff.mpr ⟨(), expression, Except.forM_eq_ok_iff.mpr fun symbol hs => ?_⟩
    cases List.mem_singleton.mp hs
    exact terminal h.operand_lt
  · refine Except.bind_eq_ok_iff.mpr ⟨(), expression, Except.forM_eq_ok_iff.mpr fun symbol hs => ?_⟩
    simp only [operatorProduction, List.mem_cons, List.not_mem_nil, or_false] at hs
    rcases hs with rfl | rfl | rfl
    · exact expression
    · exact terminal (h.operator_lt ho)
    · exact expression

/-- **Drafts of expressions are finished to grammars.** -/
theorem exists_finish : ∃ grammar, draft.finish.run.value = .ok grammar := by
  refine GrammarDraft.exists_finish h.start (h.checkNonTerminal_zero _)
    (fun p hp => h.checkProduction (List.fst_mem_of_mem_zipIdx hp) p.2) fun n hn => if_pos (List.any_eq_true.mpr ?_)
  have bound := (List.getElem?_eq_some_iff.mp (List.mem_zipIdx_iff_getElem?.mp hn)).1
  rw [h.nonTerminals] at bound
  exact ⟨_, h.mem_productions.mpr (.inl rfl), decide_eq_true (Nat.lt_one_iff.mp bound).symm⟩

/-! ## Grammars of expressions -/

section Finished
variable {grammar : Grammar α} (finished : draft.Finished grammar)
include finished

theorem start_eq : grammar.start = 0 := Nat.lt_one_iff.mp (h.nonTerminals ▸ finished.start_lt)

/-- Productions have the precedence of their operator. -/
theorem productions_eq : grammar.productions =
    draft.productions.map fun p => { p with precedence := draft.ownPrecedence p.symbols } := by
  rw [finished.productions_eq]
  conv_rhs => rw [← List.zipIdx_map_fst 0 draft.productions, List.map_map]
  refine List.map_congr_left fun (p, index) _ => ?_
  simp only [productionPrecedence, h.unlent, List.reverse_nil, List.find?_nil, Function.comp_apply]

theorem cases_production {production : Production α} (hp : production ∈ grammar.productions) :
    production.symbols = (grammar.cfg.operandRule operand).symbols ∧ production.action = .ofValues leaf ∨
      ∃ o ∈ operators, production.symbols = (grammar.cfg.operatorRule o).symbols ∧
        production.action = .ofValues (node o) ∧ production.precedence = draft.precedenceOf o := by
  rw [h.productions_eq finished] at hp
  obtain ⟨drafted, hd, rfl⟩ := List.mem_map.mp hp
  have start : grammar.cfg.start = 0 := h.start_eq finished
  rcases h.mem_productions.mp hd with rfl | ⟨o, ho, rfl⟩
  · exact .inl ⟨rfl, rfl⟩
  · refine .inr ⟨o, ho, ?_, rfl, draft.ownPrecedence_operatorProduction node o⟩
    rw [Cfg.operatorRule, Cfg.expression, start]
    rfl

theorem rules_perm : grammar.cfg.rules.toList.Perm
    (grammar.cfg.operandRule operand :: operators.map grammar.cfg.operatorRule) := by
  have rules := h.productions.map fun p : Production α => (⟨p.result, p.symbols⟩ : Rule)
  have same : grammar.cfg.rules.toList = draft.productions.map fun p => ⟨p.result, p.symbols⟩ := by
    rw [Grammar.cfg, h.productions_eq finished, List.map_map]
    rfl
  have start : grammar.cfg.start = 0 := h.start_eq finished
  have rule (o : Nat) : grammar.cfg.operatorRule o = ⟨0, (operatorProduction node o).symbols⟩ := by
    rw [Cfg.operatorRule, Cfg.expression, start]
    rfl
  rw [same, Cfg.operandRule, start, List.map_congr_left fun o _ => rule o]
  rwa [List.map_cons, List.map_map] at rules

theorem isExpressions_cfg : grammar.cfg.IsExpressions operand operators := by
  have perm := h.rules_perm finished
  have there {rule : Rule} : (∃ p : Nat, grammar.cfg.rules[p]? = some rule) ↔
      rule = grammar.cfg.operandRule operand ∨ ∃ o ∈ operators, rule = grammar.cfg.operatorRule o := by
    rw [← Array.mem_iff_getElem?, ← Array.mem_toList_iff, perm.mem_iff, List.mem_cons, List.mem_map]
    simp only [eq_comm]
  have nodup : grammar.cfg.rules.toList.Nodup := by
    refine perm.nodup_iff.mpr (List.nodup_cons.mpr ⟨fun hm => ?_, h.nodup.map fun o o' same => ?_⟩)
    · obtain ⟨o, -, same⟩ := List.mem_map.mp hm
      cases congrArg (List.length ∘ Rule.symbols) same
    · cases same
      rfl
  refine ⟨fun p rule hp => there.mp ⟨p, hp⟩, there.mpr (.inl rfl), fun o ho => there.mpr (.inr ⟨o, ho, rfl⟩), ?_,
    fun atEnd => Nat.not_lt_zero _ (h.error_lt _ (List.mem_cons_of_mem _ atEnd))⟩
  intro p q rule hp hq
  rw [← Array.getElem?_toList] at hp hq
  exact (List.getElem?_inj (List.getElem?_eq_some_iff.mp hp).1 nodup).mp (hp.trans hq.symm)

theorem isRanked {precedence : Nat → Precedence}
    (ranked : ∀ o ∈ operators, draft.precedenceOf o = some (precedence o)) :
    grammar.IsRanked operand operators precedence where
  isExpressions := h.isExpressions_cfg finished
  shift o ho := by
    rw [finished.terminals_eq]
    exact Option.bind_eq_some_iff.mp (ranked o ho)
  reduce o ho p production hp symbols := by
    rcases h.cases_production finished (List.mem_of_getElem? hp) with ⟨same, -⟩ | ⟨o', -, same, -, precedence⟩
    · cases same.symm.trans symbols
    · cases same.symm.trans symbols
      exact precedence.trans (ranked o ho)

end Finished
end IsExpressions
end GrammarDraft
end TableParsing
