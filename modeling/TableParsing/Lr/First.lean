import TableParsing.Fixpoint
import TableParsing.Grammar.Symbol
import TableParsing.Lr.TerminalSet

/-! # First terminals

For each non-terminal: whether it derives the empty word, and which terminals can stand first in what it
derives.  Both are found together, by going through the rules again and again until nothing new turns up.
**Every round but the last adds an empty non-terminal or a first terminal**, of which there are no more
than `terminalCount + 1` for each non-terminal. -/

namespace TableParsing

/-- What is known of each non-terminal. -/
structure FirstSets where
  nullable : Array Bool
  first : Array TerminalSet
deriving DecidableEq, Repr

namespace Cfg
variable (cfg : Cfg)

/-- The first terminals of a word of symbols, and whether all of the word can be empty. -/
def firstOf (known : FirstSets) : List Symbol → TerminalSet × Bool
  | [] => (.ofSize cfg.terminalCount, true)
  | .terminal t :: _ => ((TerminalSet.ofSize cfg.terminalCount).insert t, false)
  | .nonTerminal n :: symbols =>
    let first := (TerminalSet.ofSize cfg.terminalCount).union
      (known.first.getD n (.ofSize cfg.terminalCount))
    if known.nullable.getD n false then
      let (rest, nullable) := firstOf known symbols
      (first.union rest, nullable)
    else (first, false)

/-- What is known when nothing has been looked at. -/
def noFirstSets : FirstSets where
  nullable := Array.replicate cfg.nonTerminalCount false
  first := Array.replicate cfg.nonTerminalCount (.ofSize cfg.terminalCount)

/-- What is known after one more look at a rule. -/
def learn (known : FirstSets) (rule : Rule) : FirstSets :=
  let (terminals, canBeEmpty) := cfg.firstOf known rule.symbols
  match known with
  | ⟨nullable, first⟩ =>
    ⟨nullable.modify rule.result (· || canBeEmpty), first.modify rule.result (·.union terminals)⟩

/-- What is known of the non-terminals when no rule brings anything new. -/
def firstSets : FirstSets :=
  stabilize (fun known => cfg.rules.foldl cfg.learn known)
    (cfg.nonTerminalCount * (cfg.terminalCount + 1) + 1) cfg.noFirstSets

end Cfg
end TableParsing
