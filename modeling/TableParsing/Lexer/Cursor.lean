import TableParsing.Lexer.Error

/-! # Cursors

A `Cursor` is a place in an input, with what is needed to name that place to a user: the number of the
line and the characters on either side.  Only a line feed ends a line; a carriage return in front of it is
not shown. -/

namespace TableParsing

/-- A place in an input. -/
structure Cursor where
  /-- The number of bytes in front of the cursor. -/
  offset : Nat
  /-- The number of the line, from 1 on. -/
  line : Nat
  /-- The characters of the line in front of the cursor, the nearest first. -/
  behind : List Char
  /-- The characters that follow. -/
  rest : List Char
deriving DecidableEq, Inhabited, Repr

namespace Cursor

/-- The beginning of an input. -/
def ofText (text : String) : Cursor := ⟨0, 1, [], text.toList⟩

variable (cursor : Cursor)

/-- The place behind the next character. -/
def next : Cursor :=
  match cursor.rest with
  | [] => cursor
  | c :: rest =>
    let offset := cursor.offset + c.utf8Size
    if c = '\n' then ⟨offset, cursor.line + 1, [], rest⟩
    else ⟨offset, cursor.line, c :: cursor.behind, rest⟩

/-- The place behind the next `n` characters. -/
def advance (cursor : Cursor) : Nat → Cursor
  | 0 => cursor
  | n + 1 => cursor.next.advance n

/-- The number of the next character in its line, from 1 on. -/
def column : Nat := cursor.behind.length + 1

/-- The offset where the line begins. -/
def lineStart : Nat := cursor.offset - byteCount cursor.behind

/-- The whole line without its end. -/
def lineText : String :=
  let line := cursor.behind.reverse ++ cursor.rest.takeWhile (· ≠ '\n')
  String.ofList (if line.getLast? = some '\r' then line.dropLast else line)

/-- The error for a lexeme that ends at the cursor and cannot go on there. -/
def error (lexeme : List Char) : ScanError where
  line := cursor.line
  column := cursor.column
  lineText := cursor.lineText
  lexeme := String.ofList lexeme
  span := .ofLength cursor.offset (byteCount (cursor.rest.take 1))

theorem rest_next : cursor.next.rest = cursor.rest.drop 1 := by
  unfold next
  cases h : cursor.rest with
  | nil => exact h
  | cons c rest => dsimp only; split <;> rfl

theorem rest_advance (n : Nat) : (cursor.advance n).rest = cursor.rest.drop n := by
  induction n generalizing cursor with
  | zero => rfl
  | succ n ih => rw [advance, ih, rest_next, List.drop_drop, Nat.add_comm]

end Cursor
end TableParsing
