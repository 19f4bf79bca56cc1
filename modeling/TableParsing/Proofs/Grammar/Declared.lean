import TableParsing.Grammar.Draft
import TableParsing.Proofs.Except

/-! # Declared grammars

A draft is **declared** if it came about by declarations, and so is a grammar that such a draft was
finished to.  Every symbol of a declared grammar is one of its symbols (`Declared.wellFormed`), which is
what the construction of tables relies on. -/

namespace TableParsing

/-- A grammar whose symbols are all there, the two reserved terminals among them. -/
structure Cfg.WellFormed (cfg : Cfg) : Prop where
  errorTerminal_lt : errorTerminal < cfg.terminalCount
  start_lt : cfg.start < cfg.nonTerminalCount
  result_lt : ∀ rule ∈ cfg.rules, rule.result < cfg.nonTerminalCount
  terminal_lt : ∀ rule ∈ cfg.rules, ∀ t, .terminal t ∈ rule.symbols → t < cfg.terminalCount
  nonTerminal_lt : ∀ rule ∈ cfg.rules, ∀ n, .nonTerminal n ∈ rule.symbols → n < cfg.nonTerminalCount

theorem Cfg.WellFormed.endTerminal_lt {cfg : Cfg} (wf : cfg.WellFormed) :
    endTerminal < cfg.terminalCount := Nat.lt_trans Nat.zero_lt_one wf.errorTerminal_lt

variable {α : Type}

namespace GrammarDraft

/-- The drafts that declarations lead to. -/
inductive Declared : GrammarDraft α → Prop
  | empty : Declared {}
  | terminal {draft} (h : Declared draft) (name regex : String) (value : String → α) :
      Declared (draft.terminal name regex value).1
  | literal {draft} (h : Declared draft) (text : String) : Declared (draft.literal text).1
  | ignore {draft} (h : Declared draft) (regex : String) : Declared (draft.ignore regex)
  | nonTerminal {draft} (h : Declared draft) (name : String) : Declared (draft.nonTerminal name).1
  | production {draft} (h : Declared draft) (result : Nat) (symbols : List WrittenSymbol)
      (action : SemanticAction α) : Declared (draft.production result symbols action).1
  | group {draft} (h : Declared draft) (associativity : Associativity) (terminals : List Nat) :
      Declared (draft.group associativity terminals)
  | lendPrecedence {draft} (h : Declared draft) (production terminal : Nat) :
      Declared (draft.lendPrecedence production terminal)
  | start {draft} (h : Declared draft) (n : Nat) : Declared { draft with start := some n }
  | lexerOptions {draft} (h : Declared draft) (options : LexerOptions) :
      Declared { draft with lexerOptions := options }

theorem length_terminals_le_literal (draft : GrammarDraft α) (text : String) :
    draft.terminals.length ≤ (draft.literal text).1.terminals.length := by
  rw [literal]
  split
  · exact Nat.le_refl _
  · simp

/-- Resolving the symbols of a production declares texts and does nothing else. -/
theorem resolve_keeps (kept : GrammarDraft α → Prop)
    (literal : ∀ draft : GrammarDraft α, kept draft → ∀ text, kept (draft.literal text).1)
    {draft : GrammarDraft α} (h : kept draft) (symbols : List WrittenSymbol) : kept (draft.resolve symbols).1 := by
  induction symbols generalizing draft with
  | nil => exact h
  | cons symbol symbols ih =>
    cases symbol with
    | literal text => exact ih (literal draft h text)
    | terminal t => exact ih h
    | nonTerminal n => exact ih h

theorem length_terminals_le_resolve (draft : GrammarDraft α) (symbols : List WrittenSymbol) :
    draft.terminals.length ≤ (draft.resolve symbols).1.terminals.length :=
  resolve_keeps (fun later => draft.terminals.length ≤ later.terminals.length)
    (fun later h text => Nat.le_trans h (later.length_terminals_le_literal text)) (Nat.le_refl _) symbols

/-- A group changes nothing of its terminals but their precedence. -/
theorem map_terminals_group {β : Type} (seen : Terminal α → β)
    (unseen : ∀ terminal precedence, seen { terminal with precedence } = seen terminal) (draft : GrammarDraft α)
    (associativity : Associativity) (terminals : List Nat) :
    (draft.group associativity terminals).terminals.map seen = draft.terminals.map seen := by
  suffices modified : ∀ all : List (Terminal α), (terminals.foldl (fun all t => all.modify t
      fun terminal => { terminal with precedence := some ⟨draft.levels + 1, associativity⟩ }) all).map seen =
      all.map seen from modified draft.terminals
  induction terminals with
  | nil => exact fun _ => rfl
  | cons t terminals ih =>
    intro all
    rw [List.foldl_cons, ih]
    refine List.ext_getElem? fun i => ?_
    rw [List.getElem?_map, List.getElem?_map, List.getElem?_modify, Option.map_eq_map, Option.map_map]
    refine congrArg (Option.map · all[i]?) (funext fun terminal => ?_)
    dsimp only [Function.comp_apply]
    split
    · exact unseen terminal _
    · rfl

theorem length_terminals_group (draft : GrammarDraft α) (associativity : Associativity) (terminals : List Nat) :
    (draft.group associativity terminals).terminals.length = draft.terminals.length := by
  have same := congrArg List.length (draft.map_terminals_group (fun _ => ()) (fun _ _ => rfl) associativity terminals)
  rwa [List.length_map, List.length_map] at same

/-- The reserved terminals stay. -/
theorem Declared.two_le {draft : GrammarDraft α} (h : draft.Declared) : 2 ≤ draft.terminals.length := by
  induction h with
  | empty => exact Nat.le_refl 2
  | terminal h name regex value ih =>
    rw [GrammarDraft.terminal, List.length_append]
    omega
  | literal h text ih => exact Nat.le_trans ih (length_terminals_le_literal _ text)
  | production h result symbols action ih => exact Nat.le_trans ih (length_terminals_le_resolve _ symbols)
  | group h associativity terminals ih => rwa [length_terminals_group]
  | ignore h regex ih => exact ih
  | nonTerminal h name ih => exact ih
  | lendPrecedence h production terminal ih => exact ih
  | start h n ih => exact ih
  | lexerOptions h options ih => exact ih

/-! ## Finished drafts -/

variable {draft : GrammarDraft α}

theorem lt_of_checkNonTerminal {place : SymbolPlace} {n : Nat}
    (h : draft.checkNonTerminal place n = .ok ()) : n < draft.nonTerminals.length := by
  rw [checkNonTerminal] at h
  split at h
  · assumption
  · cases h

theorem lt_of_checkTerminal {place : SymbolPlace} {t : Nat}
    (h : draft.checkSymbol place (.terminal t) = .ok ()) : t < draft.terminals.length := by
  rw [checkSymbol] at h
  split at h
  · assumption
  · cases h

/-- What a draft has been checked for once it is finished. -/
structure Finished (draft : GrammarDraft α) (grammar : Grammar α) : Prop where
  terminals_eq : grammar.terminals = draft.terminals
  nonTerminals_eq : grammar.nonTerminals = draft.nonTerminals
  productions_eq : grammar.productions = draft.productions.zipIdx.map fun (p, index) =>
    { p with precedence := draft.productionPrecedence index p }
  start_lt : grammar.start < draft.nonTerminals.length
  checked : ∀ p ∈ draft.productions.zipIdx, draft.checkProduction p.2 p.1 = .ok ()
  productive : ∀ n ∈ draft.nonTerminals.zipIdx, draft.checkProductive n.2 n.1 = .ok ()

theorem finished_of_finish {grammar : Grammar α} (h : draft.finish.run.value = .ok grammar) :
    draft.Finished grammar := by
  obtain ⟨start, checks, h⟩ := Logged.bind_eq_ok_iff.mp h
  obtain ⟨-, -, h⟩ := Logged.bind_eq_ok_iff.mp h
  cases h
  cases hs : draft.start with
  | none =>
    rw [hs] at checks
    cases checks
  | some s =>
    rw [hs] at checks
    obtain ⟨_, hstart, checks⟩ := Except.bind_eq_ok_iff.mp checks
    obtain ⟨_, hproductions, checks⟩ := Except.bind_eq_ok_iff.mp checks
    obtain ⟨_, hnonTerminals, checks⟩ := Except.bind_eq_ok_iff.mp checks
    cases checks
    exact ⟨rfl, rfl, rfl, lt_of_checkNonTerminal hstart, fun p hp => Except.forM_eq_ok_iff.mp hproductions p hp,
      fun n hn => Except.forM_eq_ok_iff.mp hnonTerminals n hn⟩

/-- **A draft that passes all checks is finished.** -/
theorem exists_finish {start : Nat} (hs : draft.start = some start)
    (hstart : draft.checkNonTerminal .start start = .ok ())
    (productions : ∀ p ∈ draft.productions.zipIdx, draft.checkProduction p.2 p.1 = .ok ())
    (nonTerminals : ∀ n ∈ draft.nonTerminals.zipIdx, draft.checkProductive n.2 n.1 = .ok ()) :
    ∃ grammar, draft.finish.run.value = .ok grammar := by
  refine ⟨_, Logged.bind_eq_ok_iff.mpr ⟨start, ?_, Logged.bind_eq_ok_iff.mpr ⟨(), rfl, rfl⟩⟩⟩
  rw [hs]
  exact Except.bind_eq_ok_iff.mpr ⟨(), hstart, Except.bind_eq_ok_iff.mpr
    ⟨(), Except.forM_eq_ok_iff.mpr productions, Except.bind_eq_ok_iff.mpr
      ⟨(), Except.forM_eq_ok_iff.mpr nonTerminals, rfl⟩⟩⟩

/-- The right-hand side of a finished production is that of a production of the draft. -/
theorem Finished.declared {grammar : Grammar α} (h : draft.Finished grammar) {p : Production α}
    (hp : p ∈ grammar.productions) :
    ∃ index, ∃ q : Production α, draft.checkProduction index q = .ok () ∧
      p.result = q.result ∧ p.symbols = q.symbols := by
  rw [h.productions_eq, List.mem_map] at hp
  obtain ⟨⟨q, index⟩, hq, rfl⟩ := hp
  exact ⟨index, q, h.checked ⟨q, index⟩ hq, rfl, rfl⟩

end GrammarDraft

namespace Grammar

/-- Whether declarations lead to the grammar. -/
def Declared (grammar : Grammar α) : Prop :=
  ∃ draft : GrammarDraft α, draft.Declared ∧ draft.finish.run.value = .ok grammar

theorem mem_rules_cfg {grammar : Grammar α} {rule : Rule} :
    rule ∈ grammar.cfg.rules ↔ ∃ p ∈ grammar.productions, rule = ⟨p.result, p.symbols⟩ := by
  rw [cfg, List.mem_toArray, List.mem_map]
  exact exists_congr fun p => and_congr_right fun _ => eq_comm

/-- **All symbols of a declared grammar are there.** -/
theorem Declared.wellFormed {grammar : Grammar α} (h : grammar.Declared) : grammar.cfg.WellFormed := by
  obtain ⟨draft, declared, finish⟩ := h
  have finished := GrammarDraft.finished_of_finish finish
  have terminals : grammar.cfg.terminalCount = draft.terminals.length :=
    congrArg List.length finished.terminals_eq
  have nonTerminals : grammar.cfg.nonTerminalCount = draft.nonTerminals.length :=
    congrArg List.length finished.nonTerminals_eq
  have checked {rule : Rule} (hr : rule ∈ grammar.cfg.rules) :
      rule.result < draft.nonTerminals.length ∧
        (∀ t, .terminal t ∈ rule.symbols → t < draft.terminals.length) ∧
        ∀ n, .nonTerminal n ∈ rule.symbols → n < draft.nonTerminals.length := by
    obtain ⟨p, hp, rfl⟩ := mem_rules_cfg.mp hr
    obtain ⟨index, q, check, hresult, hsymbols⟩ := finished.declared hp
    obtain ⟨_, result, symbols⟩ := Except.bind_eq_ok_iff.mp check
    have symbols := Except.forM_eq_ok_iff.mp symbols
    simp only [hresult, hsymbols]
    exact ⟨GrammarDraft.lt_of_checkNonTerminal result,
      fun t ht => GrammarDraft.lt_of_checkTerminal (symbols _ ht),
      fun n hn => GrammarDraft.lt_of_checkNonTerminal (symbols _ hn)⟩
  refine ⟨?_, ?_, ?_, ?_, ?_⟩
  · rw [terminals]
    exact declared.two_le
  · rw [nonTerminals]
    exact finished.start_lt
  · intro rule hr
    rw [nonTerminals]
    exact (checked hr).1
  · intro rule hr t ht
    rw [terminals]
    exact (checked hr).2.1 t ht
  · intro rule hr n hn
    rw [nonTerminals]
    exact (checked hr).2.2 n hn

end Grammar
end TableParsing
