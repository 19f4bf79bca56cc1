import TableParsing.Lexer.Cursor
import TableParsing.Lexer.Matcher
import TableParsing.Lexer.Token

/-! # Scanning

A scanner reads as many characters as its matcher can take (`munch`), and the verdict of the state that it
stops in decides: it makes a token, begins anew behind a lexeme to be ignored, or fails.  **It never goes
back** to a shorter match, and a match without characters is a failure, except at the end of the input, of
which there is a token too. -/

namespace TableParsing

/-- The terminal of a pattern and the value of what it matches. -/
structure TokenClass (α : Type) where
  terminal : Nat
  value : String → α

/-- A scanner whose tokens have values of type `α`. -/
structure Lexer (α ε : Type) where
  matcher : ε
  /-- The class of each pattern's tokens; none for a pattern to be ignored. -/
  classes : Array (Option (TokenClass α))
  /-- The terminal and the value at the end of the input. -/
  endTerminal : Nat
  endValue : α

/-- What a scanner comes to. -/
inductive ScanResult (α : Type) where
  | token (token : Token α)
  | endOfInput (token : Token α)
  | failure (error : ScanError)

/-- The token of a scan, that of the end of the input included. -/
def ScanResult.toExcept {α : Type} : ScanResult α → Except ScanError (Token α)
  | .token found | .endOfInput found => .ok found
  | .failure error => .error error

/-- What a scanner came to, and the place where it stopped. -/
structure Scan (α : Type) where
  result : ScanResult α
  cursor : Cursor

section Munch
variable {ε σ : Type} [Matcher ε σ] (matcher : ε)

/-- The characters that the matcher takes in state `s`, and the state behind them. -/
def munch (s : σ) : List Char → List Char × σ
  | [] => ([], s)
  | c :: text =>
    match Matcher.next matcher s c with
    | none => ([], s)
    | some t =>
      let (lexeme, stop) := munch t text
      (c :: lexeme, stop)

theorem length_munch_le (s : σ) (text : List Char) :
    (munch matcher s text).1.length ≤ text.length := by
  induction text generalizing s with
  | nil => simp [munch]
  | cons c text ih =>
    rw [munch]
    split
    · simp
    · exact Nat.succ_le_succ (ih _)

end Munch

namespace Lexer
variable {α ε σ : Type} [Matcher ε σ] (lexer : Lexer α ε)

/-- Scans from the cursor to the next token. -/
def nextToken (cursor : Cursor) : Logged (Scan α) :=
  match _taken : munch lexer.matcher (Matcher.initial lexer.matcher) cursor.rest with
  | ([], _) =>
    if cursor.rest.isEmpty then
      let span := TextSpan.emptyAt cursor.offset
      return ⟨.endOfInput ⟨lexer.endTerminal, "", span, lexer.endValue⟩, cursor⟩
    else return ⟨.failure (cursor.error []), cursor⟩
  | (c :: cs, stop) =>
    let after := cursor.advance (cs.length + 1)
    let text := String.ofList (c :: cs)
    match Matcher.verdict lexer.matcher stop with
    | .reject => return ⟨.failure (after.error (c :: cs)), after⟩
    | .ignore => do
      .report (.skipped text)
      nextToken after
    | .token pattern =>
      match lexer.classes.getD pattern none with
      | none => return ⟨.failure (after.error (c :: cs)), after⟩
      | some kind => do
        .report (.token kind.terminal text)
        let span := TextSpan.ofLength cursor.offset (after.offset - cursor.offset)
        return ⟨.token ⟨kind.terminal, text, span, kind.value text⟩, after⟩
termination_by cursor.rest.length
decreasing_by
  have hlen := length_munch_le lexer.matcher (Matcher.initial lexer.matcher) cursor.rest
  rw [_taken] at hlen
  rw [Cursor.rest_advance, List.length_drop]
  simp only [List.length_cons] at hlen
  omega

/-- Scans token after token, at most the given number of times; the last scan is the first that does not
come to a token. -/
def scansFrom : (calls : Nat) → Cursor → List (Logged (Scan α))
  | 0, _ => []
  | calls + 1, cursor =>
    let scan := lexer.nextToken cursor
    match scan.value.result with
    | .token _ => scan :: scansFrom calls scan.value.cursor
    | _ => [scan]

/-- The scans of a whole input.  A token takes a character at least, so the last scan, which comes to no
token, is one of as many as there are characters and one more. -/
def scans (text : String) : List (Logged (Scan α)) :=
  lexer.scansFrom (text.length + 1) (.ofText text)

/-- The tokens of an input up to that of its end, or the first error. -/
def tokenize (text : String) : Logged (Except ScanError (List (Token α))) :=
  let scans := lexer.scans text
  { value := scans.mapM fun scan => scan.value.result.toExcept
    events := scans.flatMap (·.events) }

end Lexer
end TableParsing
