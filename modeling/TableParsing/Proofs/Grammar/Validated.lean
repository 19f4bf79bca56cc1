import TableParsing.Proofs.Grammar.Terminals
import TableParsing.Proofs.Table.Checked

/-! # Grammars that were validated

Declarations come in any order and with any numbers: those of symbols and productions that are not there, not there yet, or
that belong to another grammar.  No declaration looks at the numbers; all checks are made in the end.

Below is what the checks leave of this (`Validated`): a grammar whose symbols are all there, each non-terminal with a
production, each text with one terminal, and each production with the precedence that the declarations give it
(`GivesPrecedence`).  From such a grammar **the tables are built without a number that has no place**
(`validated_of_finish`). -/

namespace TableParsing

variable {α : Type}

/-! ## Declarations in a row -/

/-- A declaration, with the numbers that it names. -/
inductive Declaration (α : Type) where
  | terminal (name regex : String) (value : String → α)
  | literal (text : String)
  | ignore (regex : String)
  | nonTerminal (name : String)
  | production (result : Nat) (symbols : List WrittenSymbol) (action : SemanticAction α)
  | group (associativity : Associativity) (terminals : List Nat)
  | lendPrecedence (production terminal : Nat)
  | start (n : Nat)
  | lexerOptions (options : LexerOptions)

/-- The production that a declaration lends a precedence to, and the terminal whose precedence it is. -/
def Declaration.lent? : Declaration α → Option (Nat × Nat)
  | .lendPrecedence p t => some (p, t)
  | _ => none

theorem Declaration.lent?_eq_some_iff {declaration : Declaration α} {p t : Nat} :
    declaration.lent? = some (p, t) ↔ declaration = .lendPrecedence p t := by
  cases declaration <;> simp [lent?]

namespace GrammarDraft

/-- The draft with one more declaration. -/
def declare (draft : GrammarDraft α) : Declaration α → GrammarDraft α
  | .terminal name regex value => (draft.terminal name regex value).1
  | .literal text => (draft.literal text).1
  | .ignore regex => draft.ignore regex
  | .nonTerminal name => (draft.nonTerminal name).1
  | .production result symbols action => (draft.production result symbols action).1
  | .group associativity terminals => draft.group associativity terminals
  | .lendPrecedence production terminal => draft.lendPrecedence production terminal
  | .start n => { draft with start := some n }
  | .lexerOptions options => { draft with lexerOptions := options }

/-- The draft after some declarations. -/
def ofDeclarations (declarations : List (Declaration α)) : GrammarDraft α := declarations.foldl declare {}

theorem ofDeclarations_snoc (declarations : List (Declaration α)) (last : Declaration α) :
    ofDeclarations (declarations ++ [last]) = (ofDeclarations declarations).declare last := List.foldl_concat _ _ _ _

/-- **The declared drafts are those after some declarations.** -/
theorem declared_iff {draft : GrammarDraft α} : draft.Declared ↔ ∃ declarations, draft = ofDeclarations declarations := by
  constructor
  · intro declared
    have more {draft : GrammarDraft α} (h : ∃ declarations, draft = ofDeclarations declarations) (last : Declaration α) :
        ∃ declarations, draft.declare last = ofDeclarations declarations := by
      obtain ⟨declarations, rfl⟩ := h
      exact ⟨declarations ++ [last], (ofDeclarations_snoc declarations last).symm⟩
    induction declared with
    | empty => exact ⟨[], rfl⟩
    | terminal _ name regex value ih => exact more ih (.terminal name regex value)
    | literal _ text ih => exact more ih (.literal text)
    | ignore _ regex ih => exact more ih (.ignore regex)
    | nonTerminal _ name ih => exact more ih (.nonTerminal name)
    | production _ result symbols action ih => exact more ih (.production result symbols action)
    | group _ associativity terminals ih => exact more ih (.group associativity terminals)
    | lendPrecedence _ production terminal ih => exact more ih (.lendPrecedence production terminal)
    | start _ n ih => exact more ih (.start n)
    | lexerOptions _ options ih => exact more ih (.lexerOptions options)
  · rintro ⟨declarations, rfl⟩
    induction declarations using List.reverseRecOn with
    | nil => exact .empty
    | append_singleton declarations last ih =>
      rw [ofDeclarations_snoc]
      cases last with
      | terminal name regex value => exact ih.terminal name regex value
      | literal text => exact ih.literal text
      | ignore regex => exact ih.ignore regex
      | nonTerminal name => exact ih.nonTerminal name
      | production result symbols action => exact ih.production result symbols action
      | group associativity terminals => exact ih.group associativity terminals
      | lendPrecedence production terminal => exact ih.lendPrecedence production terminal
      | start n => exact ih.start n
      | lexerOptions options => exact ih.lexerOptions options

/-! ## Lent precedence -/

theorem lent_literal (draft : GrammarDraft α) (text : String) : (draft.literal text).1.lent = draft.lent := by
  rw [literal]
  split <;> rfl

theorem lent_resolve (draft : GrammarDraft α) (symbols : List WrittenSymbol) :
    (draft.resolve symbols).1.lent = draft.lent :=
  resolve_keeps (·.lent = draft.lent) (fun later h text => (later.lent_literal text).trans h) rfl symbols

/-- Only what lends a precedence is noted. -/
theorem lent_declare (draft : GrammarDraft α) (declaration : Declaration α) :
    (draft.declare declaration).lent = draft.lent ++ declaration.lent?.toList := by
  cases declaration with
  | lendPrecedence production terminal => rfl
  | literal text => exact (draft.lent_literal text).trans (List.append_nil _).symm
  | production result symbols action => exact (draft.lent_resolve symbols).trans (List.append_nil _).symm
  | terminal | ignore | nonTerminal | group | start | lexerOptions => exact (List.append_nil _).symm

theorem lent_ofDeclarations (declarations : List (Declaration α)) :
    (ofDeclarations declarations).lent = declarations.filterMap Declaration.lent? := by
  induction declarations using List.reverseRecOn with
  | nil => rfl
  | append_singleton declarations last ih =>
    rw [ofDeclarations_snoc, lent_declare, ih, List.filterMap_append]
    cases last <;> rfl

end GrammarDraft

namespace Grammar

/-- The precedence that declarations give to the production of a number: that of the terminal that was last to lend it one,
or else that of its last terminal that has one. -/
inductive GivesPrecedence (grammar : Grammar α) (declarations : List (Declaration α)) (p : Nat) (symbols : List Symbol) :
    Option Precedence → Prop
  | lent {before after : List (Declaration α)} {t : Nat} (last : declarations = before ++ .lendPrecedence p t :: after)
      (noLater : ∀ u, .lendPrecedence p u ∉ after) :
      GivesPrecedence grammar declarations p symbols (grammar.shiftPrecedence? t)
  | own {before after : List Symbol} {t : Nat} {precedence : Precedence}
      (never : ∀ u, .lendPrecedence p u ∉ declarations) (symbols_eq : symbols = before ++ .terminal t :: after)
      (has : grammar.shiftPrecedence? t = some precedence)
      (noLater : ∀ u, .terminal u ∈ after → grammar.shiftPrecedence? u = none) :
      GivesPrecedence grammar declarations p symbols (some precedence)
  | none (never : ∀ u, .lendPrecedence p u ∉ declarations)
      (without : ∀ t, .terminal t ∈ symbols → grammar.shiftPrecedence? t = none) :
      GivesPrecedence grammar declarations p symbols none

/-- What a grammar owes to the checks of its declarations. -/
structure Validated (declarations : List (Declaration α)) (grammar : Grammar α) : Prop where
  start_lt : grammar.start < grammar.nonTerminals.length
  result_lt : ∀ p ∈ grammar.productions, p.result < grammar.nonTerminals.length
  terminal_lt : ∀ p ∈ grammar.productions, ∀ t, .terminal t ∈ p.symbols → t < grammar.terminals.length
  nonTerminal_lt : ∀ p ∈ grammar.productions, ∀ n, .nonTerminal n ∈ p.symbols → n < grammar.nonTerminals.length
  productive : ∀ n < grammar.nonTerminals.length, ∃ p ∈ grammar.productions, p.result = n
  distinct : ∀ (text : String) (s t : Nat), (kindsOf grammar.terminals)[s]? = some (.literal text) →
    (kindsOf grammar.terminals)[t]? = some (.literal text) → s = t
  precedence : ∀ p production, grammar.productions[p]? = some production →
    grammar.GivesPrecedence declarations p production.symbols production.precedence

variable {grammar : Grammar α} {declarations : List (Declaration α)} {draft : GrammarDraft α}

/-- A finished production is that of the draft, with the precedence that was made out for it. -/
theorem getElem?_productions_of_finished (finished : draft.Finished grammar) (p : Nat) : grammar.productions[p]? =
    draft.productions[p]?.map fun q => { q with precedence := draft.productionPrecedence p q } := by
  rw [finished.productions_eq, List.getElem?_map, List.getElem?_zipIdx, Nat.zero_add, Option.map_map]
  rfl

/-- A non-terminal without a production is found out. -/
theorem exists_production_of_finished (finished : draft.Finished grammar) {n : Nat} (hn : n < grammar.nonTerminals.length) :
    ∃ p ∈ grammar.productions, p.result = n := by
  rw [finished.nonTerminals_eq] at hn
  have there : (draft.nonTerminals[n], n) ∈ draft.nonTerminals.zipIdx :=
    List.mk_mem_zipIdx_iff_getElem?.mpr (List.getElem?_eq_getElem hn)
  have checked := finished.productive _ there
  rw [GrammarDraft.checkProductive] at checked
  split at checked
  · rename_i declared
    obtain ⟨q, hq, result⟩ := List.any_eq_true.mp declared
    obtain ⟨p, hp⟩ := List.mem_iff_getElem?.mp hq
    have made := getElem?_productions_of_finished finished p
    rw [hp, Option.map_some] at made
    exact ⟨_, List.mem_of_getElem? made, of_decide_eq_true result⟩
  · cases checked

/-- The terminals of a draft have the precedence that they have in the end. -/
theorem precedenceOf_of_finished (finished : draft.Finished grammar) (t : Nat) :
    draft.precedenceOf t = grammar.shiftPrecedence? t := by
  rw [GrammarDraft.precedenceOf, shiftPrecedence?, finished.terminals_eq]

/-- A production that was lent no precedence has that of its last terminal that has one. -/
theorem givesPrecedence_own (finished : draft.Finished grammar) {p : Nat} {symbols : List Symbol}
    (never : ∀ u, .lendPrecedence p u ∉ declarations) :
    grammar.GivesPrecedence declarations p symbols (draft.ownPrecedence symbols) := by
  have precedenceOf := precedenceOf_of_finished finished
  cases found : draft.ownPrecedence symbols with
  | none =>
    refine .none never fun t ht => (precedenceOf t).symm.trans ?_
    exact List.findSome?_eq_none_iff.mp found (.terminal t) (List.mem_reverse.mpr ht)
  | some precedence =>
    obtain ⟨later, symbol, before, split, has, noLater⟩ := List.findSome?_eq_some_iff.mp found
    cases symbol with
    | nonTerminal n => cases has
    | terminal t =>
      have whole : symbols = before.reverse ++ .terminal t :: later.reverse := by
        rw [← List.reverse_reverse symbols, split]
        simp
      refine .own never whole ((precedenceOf t).symm.trans has) fun u hu => (precedenceOf u).symm.trans ?_
      exact noLater (.terminal u) (List.mem_reverse.mp hu)

/-- **The last to lend a production a precedence decides.** -/
theorem givesPrecedence_of_finished (finished : (GrammarDraft.ofDeclarations declarations).Finished grammar) (p : Nat)
    (production : Production α) : grammar.GivesPrecedence declarations p production.symbols
      ((GrammarDraft.ofDeclarations declarations).productionPrecedence p production) := by
  have lent := GrammarDraft.lent_ofDeclarations declarations
  rw [GrammarDraft.productionPrecedence]
  split
  · rename_i q t found
    obtain ⟨same, later, before, split, noLater⟩ := List.find?_eq_some_iff_append.mp found
    obtain rfl : q = p := of_decide_eq_true same
    have lends : declarations.filterMap Declaration.lent? = before.reverse ++ (q, t) :: later.reverse := by
      rw [← lent, ← List.reverse_reverse (GrammarDraft.ofDeclarations declarations).lent, split]
      simp
    obtain ⟨front, rest, rfl, -, behind⟩ := List.filterMap_eq_append_iff.mp lends
    obtain ⟨skipped, declaration, after, rfl, -, lender, afterwards⟩ := List.filterMap_eq_cons_iff.mp behind
    obtain rfl := Declaration.lent?_eq_some_iff.mp lender
    rw [precedenceOf_of_finished finished]
    refine .lent (List.append_assoc front skipped _).symm fun u hu => ?_
    have hu : (q, u) ∈ later := List.mem_reverse.mp (afterwards ▸ List.mem_filterMap.mpr ⟨_, hu, rfl⟩)
    simpa using noLater _ hu
  · rename_i missed
    refine givesPrecedence_own finished fun u hu => ?_
    have noted : (p, u) ∈ (GrammarDraft.ofDeclarations declarations).lent :=
      lent ▸ List.mem_filterMap.mpr ⟨_, hu, rfl⟩
    simpa using List.find?_eq_none.mp missed _ (List.mem_reverse.mpr noted)

/-- **What passes the checks is whole, and builds its tables.**  Whatever was declared, in whatever order and with whatever
numbers: the grammar, if there is one, is validated, and its tables, or the first conflict in them, come up without a number
that has no place. -/
theorem validated_of_finish {declarations : List (Declaration α)} {grammar : Grammar α}
    (finish : (GrammarDraft.ofDeclarations declarations).finish.run.value = .ok grammar) :
    grammar.Validated declarations ∧
      ∀ mergeCores, (grammar.table? mergeCores).run = some (grammar.table mergeCores) := by
  have declared : grammar.Declared := ⟨_, GrammarDraft.declared_iff.mpr ⟨declarations, rfl⟩, finish⟩
  have finished := GrammarDraft.finished_of_finish finish
  have wf := declared.wellFormed
  have rule {p : Production α} (hp : p ∈ grammar.productions) : ⟨p.result, p.symbols⟩ ∈ grammar.cfg.rules :=
    mem_rules_cfg.mpr ⟨p, hp, rfl⟩
  refine ⟨?_, table?_eq wf⟩
  exact {
    start_lt := wf.start_lt
    result_lt := fun p hp => wf.result_lt _ (rule hp)
    terminal_lt := fun p hp => wf.terminal_lt _ (rule hp)
    nonTerminal_lt := fun p hp => wf.nonTerminal_lt _ (rule hp)
    productive := fun n hn => exists_production_of_finished finished hn
    distinct := fun text s t hs ht => declared.orderly.distinct hs ht
    precedence := fun p production hp => by
      rw [getElem?_productions_of_finished finished] at hp
      obtain ⟨q, -, rfl⟩ := Option.map_eq_some_iff.mp hp
      exact givesPrecedence_of_finished finished p q }

/-- Declarations that name the terminal 9 and the production 7, though there are none, and the non-terminal 0 too early. -/
def stray : List (Declaration Nat) := [
  .start 0,
  .production 0 [.nonTerminal 0, .literal "+", .nonTerminal 0] (.ofValues List.sum),
  .nonTerminal "sum",
  .terminal "digit" "[0-9]" String.length,
  .production 0 [.terminal 3] (.ofValues List.sum),
  .production 0 [.literal "+", .nonTerminal 0] (.ofValues List.sum),
  .group .left [2, 9],
  .lendPrecedence 0 2,
  .lendPrecedence 0 9,
  .lendPrecedence 7 2]

/-- The terminal 9 was the last to lend its precedence, so the first production has none. -/
theorem validated_of_finish_stray : ∃ grammar, (GrammarDraft.ofDeclarations stray).finish.run.value = .ok grammar ∧
    grammar.productions.map (·.precedence) = [none, none, some ⟨1, .left⟩] ∧ grammar.Validated stray ∧
    ∀ mergeCores, (grammar.table? mergeCores).run = some (grammar.table mergeCores) := by
  have finish : ∃ grammar, (GrammarDraft.ofDeclarations stray).finish.run.value = .ok grammar ∧
      grammar.productions.map (·.precedence) = [none, none, some ⟨1, .left⟩] := ⟨_, rfl, rfl⟩
  obtain ⟨grammar, finish, precedence⟩ := finish
  exact ⟨grammar, finish, precedence, validated_of_finish finish⟩

/-- A right-hand side with the terminal 9 is not accepted. -/
example : (GrammarDraft.ofDeclarations (.production 0 [.terminal 9] (.ofValues List.sum) :: stray)).finish.run.value =
    .error (.unknownSymbol .terminal 9 (.production 0)) := rfl

end Grammar
end TableParsing
