/-! # Symbols and precedence -/

namespace TableParsing

/-- A symbol on the right-hand side of a production, by its number. -/
inductive Symbol where
  | terminal (t : Nat)
  | nonTerminal (n : Nat)
deriving DecidableEq, Inhabited, Repr

/-- Whether the symbol is a terminal. -/
def Symbol.isTerminal : Symbol → Bool
  | terminal _ => true
  | nonTerminal _ => false

/-- The terminal that stands for the end of the input. -/
def endTerminal : Nat := 0

/-- The terminal that stands for a piece of input with an error in it. -/
def errorTerminal : Nat := 1

/-- How operators of one level group. -/
inductive Associativity where
  | left
  | right
  /-- They may not stand side by side. -/
  | nonAssoc
deriving DecidableEq, Repr

/-- How tightly an operator binds; a higher level binds more tightly. -/
structure Precedence where
  level : Nat
  associativity : Associativity
deriving DecidableEq, Repr

/-! ## Plain grammars

What the construction of tables needs to know of a grammar. -/

/-- A production: a non-terminal and what it may be replaced by. -/
structure Rule where
  result : Nat
  symbols : List Symbol
deriving DecidableEq, Repr

/-- A context-free grammar over numbered symbols. -/
structure Cfg where
  terminalCount : Nat
  nonTerminalCount : Nat
  rules : Array Rule
  start : Nat
deriving DecidableEq, Repr

end TableParsing
