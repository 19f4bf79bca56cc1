import TableParsing.Event
import TableParsing.Grammar.Basic
import TableParsing.Grammar.Error

/-! # Drafts of grammars

A grammar is declared piece by piece.  Declarations never fail, even if they name symbols that are not
there; `GrammarDraft.finish` checks the whole.

**Precedence.**  Each group of operators opens a level that binds more tightly than all before it.  A
production has the precedence of the last of its terminals that has one, unless it was lent that of
another terminal. -/

namespace TableParsing

/-- A symbol as the author of a grammar writes it. -/
inductive WrittenSymbol where
  /-- A text; it declares a terminal when it is used for the first time. -/
  | literal (text : String)
  | terminal (t : Nat)
  | nonTerminal (n : Nat)
deriving DecidableEq, Repr

/-- The declarations so far. -/
structure GrammarDraft (α : Type) where
  terminals : List (Terminal α) := [⟨"$end", .reserved, none⟩, ⟨"error", .reserved, none⟩]
  nonTerminals : List String := []
  productions : List (Production α) := []
  /-- Productions with the terminals that lend them a precedence, in order. -/
  lent : List (Nat × Nat) := []
  /-- The number of levels of precedence. -/
  levels : Nat := 0
  start : Option Nat := none
  ignored : List String := []
  lexerOptions : LexerOptions := {}

namespace GrammarDraft
variable {α : Type} (draft : GrammarDraft α)

/-! ## Declarations -/

/-- Declares a terminal for the texts that match a pattern; it gets the returned number. -/
def terminal (name regex : String) (value : String → α) : GrammarDraft α × Nat :=
  ({ draft with terminals := draft.terminals ++ [⟨name, .pattern regex value, none⟩] },
    draft.terminals.length)

/-- The terminal that was declared for a text. -/
def literal? (text : String) : Option Nat :=
  draft.terminals.findIdx? fun t =>
    match t.kind with
    | .literal declared => declared = text
    | _ => false

/-- The terminal for a text; the text is declared if need be. -/
def literal (text : String) : GrammarDraft α × Nat :=
  match draft.literal? text with
  | some t => (draft, t)
  | none =>
    ({ draft with terminals := draft.terminals ++ [⟨text, .literal text, none⟩] },
      draft.terminals.length)

/-- Declares a pattern to be ignored. -/
def ignore (regex : String) : GrammarDraft α :=
  { draft with ignored := draft.ignored ++ [regex] }

/-- Declares a non-terminal; it gets the returned number. -/
def nonTerminal (name : String) : GrammarDraft α × Nat :=
  ({ draft with nonTerminals := draft.nonTerminals ++ [name] }, draft.nonTerminals.length)

/-- The symbols for what an author wrote; texts are declared if need be. -/
def resolve (draft : GrammarDraft α) : List WrittenSymbol → GrammarDraft α × List Symbol
  | [] => (draft, [])
  | .literal text :: written =>
    let (draft, t) := draft.literal text
    let (draft, symbols) := draft.resolve written
    (draft, .terminal t :: symbols)
  | .terminal t :: written =>
    let (draft, symbols) := draft.resolve written
    (draft, .terminal t :: symbols)
  | .nonTerminal n :: written =>
    let (draft, symbols) := draft.resolve written
    (draft, .nonTerminal n :: symbols)

/-- Declares a production; it gets the returned number. -/
def production (result : Nat) (symbols : List WrittenSymbol) (action : SemanticAction α) :
    GrammarDraft α × Nat :=
  let (draft, symbols) := draft.resolve symbols
  ({ draft with productions := draft.productions ++ [⟨result, symbols, action, none⟩] },
    draft.productions.length)

/-- Opens a level of precedence for some terminals. -/
def group (associativity : Associativity) (terminals : List Nat) : GrammarDraft α :=
  let level := draft.levels + 1
  { draft with
    levels := level
    terminals := terminals.foldl (fun all t =>
      all.modify t fun terminal => { terminal with precedence := some ⟨level, associativity⟩ })
      draft.terminals }

/-- Lends a production the precedence of a terminal. -/
def lendPrecedence (production terminal : Nat) : GrammarDraft α :=
  { draft with lent := draft.lent ++ [(production, terminal)] }

/-! ## The finished grammar -/

/-- Checks that a non-terminal is there. -/
def checkNonTerminal (place : SymbolPlace) (n : Nat) : Except GrammarError Unit :=
  if n < draft.nonTerminals.length then .ok () else .error (.unknownSymbol .nonTerminal n place)

/-- Checks that a symbol is there. -/
def checkSymbol (place : SymbolPlace) : Symbol → Except GrammarError Unit
  | .terminal t =>
    if t < draft.terminals.length then .ok () else .error (.unknownSymbol .terminal t place)
  | .nonTerminal n => draft.checkNonTerminal place n

/-- Checks that all symbols of a production are there. -/
def checkProduction (index : Nat) (production : Production α) : Except GrammarError Unit := do
  draft.checkNonTerminal (.production index) production.result
  production.symbols.forM (draft.checkSymbol (.production index))

/-- Checks that a non-terminal has a production. -/
def checkProductive (n : Nat) (name : String) : Except GrammarError Unit :=
  if draft.productions.any (·.result = n) then .ok () else .error (.noProductions name)

/-- The precedence of a terminal, if it is there and has one. -/
def precedenceOf (t : Nat) : Option Precedence := draft.terminals[t]?.bind (·.precedence)

/-- The precedence of the last symbol that has one. -/
def ownPrecedence (symbols : List Symbol) : Option Precedence :=
  symbols.reverse.findSome? fun symbol =>
    match symbol with
    | .terminal t => draft.precedenceOf t
    | .nonTerminal _ => none

/-- The precedence of the production with number `index`: that of the last terminal that was to lend it
one, or its own. -/
def productionPrecedence (index : Nat) (production : Production α) : Option Precedence :=
  match draft.lent.reverse.find? (·.1 = index) with
  | some (_, t) => draft.precedenceOf t
  | none => draft.ownPrecedence production.symbols

/-- The grammar, if all symbols that it names are there and every non-terminal has a production. -/
def finish : ExceptT GrammarError Logged (Grammar α) := do
  let checked : Except GrammarError Nat := do
    let some start := draft.start | throw .missingStart
    draft.checkNonTerminal .start start
    draft.productions.zipIdx.forM fun (p, index) => draft.checkProduction index p
    draft.nonTerminals.zipIdx.forM fun (name, n) => draft.checkProductive n name
    return start
  let start ← ExceptT.mk (pure checked)
  let productions := draft.productions.zipIdx.map fun (p, index) =>
    { p with precedence := draft.productionPrecedence index p }
  Logged.report (.builtGrammar draft.terminals.length draft.nonTerminals.length
    productions.length)
  return ⟨draft.terminals, draft.nonTerminals, productions, start, draft.ignored,
    draft.lexerOptions⟩

end GrammarDraft
end TableParsing
