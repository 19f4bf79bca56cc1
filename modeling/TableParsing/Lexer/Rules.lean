import TableParsing.Lexer.Scan
import TableParsing.Nfa.Thompson

/-! # Rules of a lexer

A lexer is made from rules in order of rank: of two patterns that match the same text, the one registered
first makes the token.  Patterns to be ignored come after all others, wherever they stand. -/

namespace TableParsing

/-- A pattern with the class of its tokens; without one, what it matches is ignored. -/
structure LexerRule (α : Type) where
  pattern : String
  token : Option (TokenClass α)

/-- The rules of a lexer. -/
structure LexerRules (α : Type) where
  rules : List (LexerRule α) := []
  /-- The terminal and the value at the end of the input. -/
  endOfInput : Option (Nat × α) := none
  options : LexerOptions := {}

namespace LexerRules
variable {α : Type} (rules : LexerRules α)

/-- The rules with one more pattern for tokens. -/
def token (terminal : Nat) (pattern : String) (value : String → α) : LexerRules α :=
  { rules with rules := rules.rules ++ [⟨pattern, some ⟨terminal, value⟩⟩] }

/-- The rules with one more text whose occurrences are tokens. -/
def literal (terminal : Nat) (text : String) (value : String → α) : LexerRules α :=
  rules.token terminal (escapeLiteral text) value

/-- The rules with one more pattern to be ignored. -/
def ignore (pattern : String) : LexerRules α :=
  { rules with rules := rules.rules ++ [⟨pattern, none⟩] }

/-- The automaton and the verdict of the rule with number `index`. -/
def compileRule (index : Nat) (rule : LexerRule α) : Except LexerRulesError (Nfa × Verdict) :=
  match Nfa.ofPattern rule.pattern with
  | .error fault => .error (.invalidPattern index fault)
  | .ok nfa => .ok (nfa, if rule.token.isSome then .token index else .ignore)

/-- The automata of all rules, or the fault of the first malformed pattern. -/
def patterns : Except LexerRulesError PatternList :=
  rules.rules.zipIdx.mapM fun (rule, index) => compileRule index rule

variable {ε σ : Type} [Matcher ε σ]

/-- The lexer of the rules.  Without rules it takes the empty input alone. -/
def compile : ExceptT LexerRulesError Logged (Lexer α ε) := do
  let some (endTerminal, endValue) := rules.endOfInput | throw .missingEndOfInput
  let patterns ← ExceptT.mk (pure rules.patterns)
  let matcher ← (Matcher.ofPatterns patterns rules.options : Logged ε)
  Logged.report (.compiledLexer patterns.length rules.options)
  return ⟨matcher, (rules.rules.map (·.token)).toArray, endTerminal, endValue⟩

/-- The lexer of the rules, of which there has to be one. -/
def build : ExceptT LexerRulesError Logged (Lexer α ε) :=
  if rules.rules.isEmpty then throw .noPatterns else rules.compile

end LexerRules
end TableParsing
