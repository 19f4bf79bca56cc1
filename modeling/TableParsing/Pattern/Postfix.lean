import TableParsing.Pattern.Token

/-! # Postfix order

The tokens of a pattern leave out the sign for concatenation and put operators between their operands.
`markConcat` writes the missing signs, and `toPostfix` moves every operator behind its operands:
operators wait on a stack until one that binds less tightly, or the end of their group, comes up.
Operators of equal strength associate to the left.

Reordering does not notice an operator without operands, so `checkHeight` follows the height that the
stack of languages would have.  `PatternOp.ofPattern` is the whole way from a pattern to its operations. -/

namespace TableParsing

namespace PatternToken

/-- Whether an operand ends with the token. -/
def endsOperand : PatternToken → Bool
  | operation .concat | operation .alternate | opening => false
  | operation _ | closing => true

/-- Whether an operand begins with the token. -/
def beginsOperand : PatternToken → Bool
  | operation (.accept _) | opening => true
  | operation _ | closing => false

end PatternToken

/-- How tightly an operator binds its operands. -/
def PatternOp.strength : PatternOp → Nat
  | accept _ => 0
  | alternate => 1
  | concat => 2
  | star | plus | optional | «repeat» _ _ => 3

/-- The tokens with a sign for concatenation wherever an operand follows an operand.  The sign takes the
place of the second operand. -/
def markConcat : List (PatternToken × PatternPlace) → List (PatternToken × PatternPlace)
  | [] => []
  | [token] => [token]
  | first :: second :: rest =>
    if first.1.endsOperand && second.1.beginsOperand then
      first :: (.operation .concat, second.2) :: markConcat (second :: rest)
    else first :: markConcat (second :: rest)

/-! ## Reordering -/

/-- What waits for its place: an operator, or an open parenthesis. -/
inductive Waiting where
  | operator (op : PatternOp) (place : PatternPlace)
  | group (place : PatternPlace)

/-- The operators on top of the stack that bind at least as tightly as `strength`, up to the open
parenthesis, and the stack without them. -/
def popStronger (strength : Nat) : List Waiting → List (PatternOp × PatternPlace) × List Waiting
  | .operator op place :: stack =>
    if strength ≤ op.strength then
      let (popped, stack) := popStronger strength stack
      ((op, place) :: popped, stack)
    else ([], .operator op place :: stack)
  | stack => ([], stack)

/-- The operators above the last open parenthesis and the stack below it, if there is one. -/
def popGroup? : List Waiting → Option (List (PatternOp × PatternPlace) × List Waiting)
  | [] => none
  | .group _ :: stack => some ([], stack)
  | .operator op place :: stack =>
    (popGroup? stack).map fun (popped, stack) => ((op, place) :: popped, stack)

/-- All operators of the stack, if no parenthesis is open. -/
def popAll : List Waiting → Except PatternFault (List (PatternOp × PatternPlace))
  | [] => .ok []
  | .group place :: _ => .error ⟨.unbalancedParenthesis, place⟩
  | .operator op place :: stack => ((op, place) :: ·) <$> popAll stack

/-- The operations of the tokens in postfix order, with those that wait on the stack. -/
def toPostfix : List (PatternToken × PatternPlace) → List Waiting →
    Except PatternFault (List (PatternOp × PatternPlace))
  | [], stack => popAll stack
  | (.opening, place) :: rest, stack => toPostfix rest (.group place :: stack)
  | (.closing, place) :: rest, stack =>
    match popGroup? stack with
    | none => .error ⟨.unbalancedParenthesis, place⟩
    | some (popped, stack) => (popped ++ ·) <$> toPostfix rest stack
  | (.operation (.accept set), place) :: rest, stack =>
    ((.accept set, place) :: ·) <$> toPostfix rest stack
  | (.operation op, place) :: rest, stack =>
    let (popped, stack) := popStronger op.strength stack
    (popped ++ ·) <$> toPostfix rest (.operator op place :: stack)

/-! ## Operands -/

/-- Follows the height of the stack of languages from `height` on, for the operations of the pattern
`text`.  Exactly one language has to be left. -/
def checkHeight (text : List Char) (height : Nat) :
    List (PatternOp × PatternPlace) → Except PatternFault Unit
  | [] =>
    match height with
    | 0 => .error ⟨.emptyPattern, text⟩
    | 1 => .ok ()
    | _ => .error ⟨.missingOperand, []⟩
  | (op, place) :: rest =>
    if height < op.operands then .error ⟨.missingOperand, place⟩
    else checkHeight text (height - op.operands + 1) rest

/-- The operations of the pattern `text`, which has these tokens. -/
def operationsOf (text : List Char) (tokens : List (PatternToken × PatternPlace)) :
    Except PatternFault (List PatternOp) := do
  let ops ← toPostfix (markConcat tokens) []
  checkHeight text 0 ops
  return ops.map Prod.fst

/-- The operations of the pattern in postfix order. -/
def PatternOp.ofPattern (pattern : String) : Except PatternError (List PatternOp) :=
  let text := pattern.toList
  let parsed : Except PatternFault (List PatternOp) :=
    if text.isEmpty then .error ⟨.emptyPattern, text⟩
    else do operationsOf text (← readTokens text)
  parsed.mapError fun fault => ⟨pattern, text.length - fault.place.length, fault.cause⟩

/-! ## Literal text -/

/-- Whether `c` is a punctuation character of ASCII. -/
def isPunctuation (c : Char) : Bool :=
  '\x21' ≤ c && c ≤ '\x7e' && !c.isAlphanum

/-- The pattern that matches `text` and nothing else: punctuation is marked by a backslash. -/
def escapeLiteral (text : String) : String :=
  String.ofList (text.toList.flatMap fun c => if isPunctuation c then ['\\', c] else [c])

end TableParsing
