import TableParsing.CharSet.Basic

/-! # Operations of a pattern

A pattern is kept in **postfix order**: a list of operations for a stack of languages.  `accept`
puts a language of single characters on the stack, and every other operation takes one or two
languages away and puts back what it makes of them. -/

namespace TableParsing

/-- One operation on a stack of languages. -/
inductive PatternOp where
  /-- The words of one character from the set. -/
  | accept (set : CharSet)
  /-- A word of the first language, followed by a word of the second. -/
  | concat
  /-- The words of either language. -/
  | alternate
  /-- Any number of words one after the other. -/
  | star
  /-- At least one word, then any number. -/
  | plus
  /-- A word or nothing. -/
  | optional
  /-- From `min` to `max` words; without a `max`, `min` or more. -/
  | «repeat» (min : Nat) (max : Option Nat)
deriving DecidableEq

/-- The number of languages that the operation takes off the stack. -/
def PatternOp.operands : PatternOp → Nat
  | accept _ => 0
  | concat | alternate => 2
  | star | plus | optional | «repeat» _ _ => 1

end TableParsing
