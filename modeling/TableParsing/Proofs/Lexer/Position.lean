import Mathlib.Data.List.TakeWhile
import TableParsing.Proofs.Lexer.Tokenization

/-! # Positions

A text falls into lines, and a `Place` names one of the cuts between its characters by what stands around it: the lines
above, the two parts of its own line, and the end of that line with the lines below.  There is one cursor at each place
(`Place.cursor`), and `Cursor.next` goes from place to place as `Place.next` does.

A lexer reads character by character, from call to call, and every point that it comes to is at a place.  So **the
bytes, lines and columns that cursors and errors tell are those of the text** (`Lexer.keepsPlace`), whatever matcher
the lexer runs and however far it has come. -/

namespace TableParsing

/-! ## Places -/

/-- A cut of a text that knows its line. -/
structure Place where
  /-- The lines above, with their ends. -/
  above : List Char
  /-- The line in front of the place. -/
  left : List Char
  /-- The line behind the place. -/
  right : List Char
  /-- The end of the line and the lines below. -/
  below : List Char

namespace Place

variable (place : Place) (text : List Char)

/-- All of the text that is in front of the place. -/
def front : List Char := place.above ++ place.left

/-- All of the text that is behind the place. -/
def back : List Char := place.right ++ place.below

/-- The line of the place. -/
def line : List Char := place.left ++ place.right

/-- Whether the place is one of the text, and its line one of the text's lines. -/
structure IsIn : Prop where
  whole : place.front ++ place.back = text
  above : place.above = [] ∨ place.above.getLast? = some '\n'
  line : '\n' ∉ place.line
  below : place.below = [] ∨ place.below.head? = some '\n'

/-- The place in front of the first line of `rest`. -/
def atLine (above rest : List Char) : Place where
  above := above
  left := []
  right := rest.takeWhile (· ≠ '\n')
  below := rest.dropWhile (· ≠ '\n')

/-- The place behind the next character. -/
def next : Place :=
  match place.right, place.below with
  | c :: right, below => ⟨place.above, place.left ++ [c], right, below⟩
  | [], c :: below => atLine (place.front ++ [c]) below
  | [], [] => place

/-- The cursor at the place. -/
def cursor : Cursor where
  offset := byteCount place.front
  line := place.front.count '\n' + 1
  behind := place.left.reverse
  rest := place.back

variable {place text}

theorem isIn_atLine {above rest : List Char} (h : above = [] ∨ above.getLast? = some '\n') :
    (atLine above rest).IsIn (above ++ rest) where
  whole := by rw [front, back, atLine, List.append_nil, List.takeWhile_append_dropWhile]
  above := h
  line := by
    intro hmem
    have hmem : '\n' ∈ rest.takeWhile (· ≠ '\n') := hmem
    have passes := List.mem_takeWhile_imp hmem
    simp at passes
  below := by
    have stops := List.head?_dropWhile_not (· ≠ '\n') rest
    change rest.dropWhile (· ≠ '\n') = [] ∨ (rest.dropWhile (· ≠ '\n')).head? = some '\n'
    cases later : rest.dropWhile (· ≠ '\n') with
    | nil => exact .inl rfl
    | cons c below =>
      rw [later] at stops
      simpa using stops

/-- The place in front of a text. -/
theorem isIn_beginning : (atLine [] text).IsIn text :=
  isIn_atLine (.inl rfl)

theorem cursor_beginning (text : String) : (atLine [] text.toList).cursor = .ofText text := by
  have whole : (atLine [] text.toList).back = text.toList := isIn_beginning.whole
  rw [cursor, whole]
  rfl

/-- **The next place is one of the same text**, and the next cursor is at it. -/
theorem IsIn.next (h : place.IsIn text) : place.next.IsIn text ∧ place.next.cursor = place.cursor.next := by
  obtain ⟨above, left, right, below⟩ := place
  cases right with
  | cons c right =>
    -- within the line, where no character ends a line
    have inside : c ≠ '\n' := by
      rintro rfl
      exact h.line (List.mem_append_right left List.mem_cons_self)
    refine ⟨⟨?_, h.above, ?_, h.below⟩, ?_⟩
    · simpa [Place.next, front, back] using h.whole
    · simpa [Place.next, Place.line] using h.line
    · simp [Place.next, cursor, Cursor.next, front, back, byteCount_append, inside, Nat.add_assoc]
  | nil =>
    cases below with
    | nil => exact ⟨h, rfl⟩
    | cons c below =>
      -- over the end of the line
      have newline : c = '\n' := by simpa using h.below
      subst newline
      have split : above ++ left ++ ['\n'] ++ below = text := by simpa [front, back] using h.whole
      refine ⟨split ▸ isIn_atLine (.inr List.getLast?_concat), ?_⟩
      simp [Place.next, cursor, Cursor.next, front, back, atLine, byteCount_append, Nat.add_assoc]

end Place

/-! ## What cursors and errors tell -/

theorem byteCount_reverse (text : List Char) : byteCount text.reverse = byteCount text := by
  induction text with
  | nil => rfl
  | cons c text ih =>
    rw [List.reverse_cons, byteCount_append, ih, byteCount_cons, byteCount_cons, byteCount_nil, Nat.add_zero,
      Nat.add_comm]

namespace Cursor

/-- **A newline begins a line behind it**, and behind any other character the line begins where it did. -/
theorem lineStart_next {cursor : Cursor} {c : Char} {rest : List Char} (more : cursor.rest = c :: rest) :
    cursor.next.lineStart = if c = '\n' then cursor.next.offset else cursor.lineStart := by
  simp only [next, more]
  split
  · exact Nat.sub_zero _
  · change cursor.offset + c.utf8Size - byteCount (c :: cursor.behind) = cursor.offset - byteCount cursor.behind
    rw [byteCount_cons]
    omega

end Cursor

/-- A text can be cut behind its front. -/
theorem splitBytes?_byteCount (front back : List Char) :
    splitBytes? (front ++ back) (byteCount front) = some (front, back) := by
  induction front with
  | nil => cases back <;> rfl
  | cons c front ih =>
    obtain ⟨n, size⟩ := Nat.exists_eq_add_of_lt c.utf8Size_pos
    have count : byteCount (c :: front) = n + byteCount front + 1 := by
      rw [byteCount_cons, size]
      omega
    have fits : c.utf8Size ≤ n + byteCount front + 1 := by omega
    have left : n + byteCount front + 1 - c.utf8Size = byteCount front := by omega
    rw [count, List.cons_append, splitBytes?, if_pos fits, left, ih]
    rfl

/-- Whether a cursor is at a place of a text: its offset and that of its line fall between two characters, the one at
the place and the other in front of its line, and the number of its line is that of the newlines in front of it and one
more. -/
structure Cursor.IsAt (cursor : Cursor) (text : List Char) (place : Place) : Prop where
  isIn : place.IsIn text
  offset : cursor.offset = byteCount place.front
  boundary : splitBytes? text cursor.offset = some (place.front, place.back)
  line : cursor.line = place.front.count '\n' + 1
  lineStart : cursor.lineStart = byteCount place.above
  lineBoundary : splitBytes? text cursor.lineStart = some (place.above, place.line ++ place.below)
  rest : cursor.rest = place.back

/-- Whether an error tells a place: the line and the column are those of the character behind the place, which the span
points at; the line is shown without a carriage return at its end, if it has one; and the lexeme ends at the place, on
whatever line it began. -/
structure ScanError.Tells (error : ScanError) (place : Place) : Prop where
  line : error.line = place.front.count '\n' + 1
  column : error.column = place.left.length + 1
  lineText : place.line = error.lineText.toList ++ ['\r'] ∨
    place.line = error.lineText.toList ∧ place.line.getLast? ≠ some '\r'
  lexeme : error.lexeme.toList <:+ place.front
  span : error.span = .ofLength (byteCount place.front) (byteCount (place.back.take 1))

namespace Place.IsIn

variable {place : Place} {text : List Char} (h : place.IsIn text)
include h

theorem isAt : place.cursor.IsAt text place := by
  have lineStart : place.cursor.lineStart = byteCount place.above := by
    rw [Cursor.lineStart, cursor, byteCount_reverse, front, byteCount_append, Nat.add_sub_cancel]
  refine ⟨h, rfl, ?_, rfl, lineStart, ?_, rfl⟩
  · rw [← h.whole]
    exact splitBytes?_byteCount place.front place.back
  · have whole : place.above ++ (place.line ++ place.below) = text := by
      rw [← h.whole, front, back, Place.line, List.append_assoc, List.append_assoc]
    rw [lineStart, ← whole]
    exact splitBytes?_byteCount place.above (place.line ++ place.below)

/-- The cursor sees its line. -/
theorem cursor_line : place.cursor.behind.reverse ++ place.cursor.rest.takeWhile (· ≠ '\n') = place.line := by
  have inside : ∀ c ∈ place.right, decide (c ≠ '\n') = true := by
    intro c hc
    refine decide_eq_true ?_
    rintro rfl
    exact h.line (List.mem_append_right place.left hc)
  have outside : place.below.takeWhile (· ≠ '\n') = [] := by
    rcases h.below with last | ends
    · rw [last, List.takeWhile_nil]
    · obtain ⟨below, begins⟩ := List.head?_eq_some_iff.mp ends
      rw [begins]
      exact List.takeWhile_cons_of_neg (by simp)
  rw [cursor, List.reverse_reverse, back, List.takeWhile_append_of_pos inside, outside, List.append_nil, Place.line]

/-- **An error at a place tells it.** -/
theorem tells {lexeme : List Char} (hlexeme : lexeme <:+ place.front) : (place.cursor.error lexeme).Tells place where
  line := rfl
  column := congrArg (· + 1) List.length_reverse
  lineText := by
    rw [Cursor.error, Cursor.lineText, h.cursor_line, String.toList_ofList]
    split
    · rename_i carriage
      obtain ⟨shown, whole⟩ := List.getLast?_eq_some_iff.mp carriage
      rw [whole, List.dropLast_concat]
      exact .inl rfl
    · rename_i plain
      exact .inr ⟨rfl, plain⟩
  lexeme := by rwa [Cursor.error, String.toList_ofList]
  span := rfl

end Place.IsIn

/-! ## The points of scans -/

namespace Lexer

variable {α ε σ : Type} [Matcher ε σ] (lexer : Lexer α ε) (text : String)

/-- The cursors from which an input is scanned: its beginning, and where the scan before came to, be it to a token, to
the end or to an error. -/
inductive IsCalled : Cursor → Prop where
  | first : IsCalled (.ofText text)
  | again {call : Cursor} (called : IsCalled call) : IsCalled (lexer.nextToken call).value.cursor

/-- The points of a scan: where its lexeme began, the state of the matcher, and the cursor. -/
inductive Scanning (call : Cursor) : Cursor → σ → Cursor → Prop where
  | call : Scanning call call (Matcher.initial lexer.matcher) call
  /-- A character that the matcher takes. -/
  | read {start here : Cursor} {s t : σ} {c : Char} {rest : List Char} (point : Scanning call start s here)
      (more : here.rest = c :: rest) (taken : Matcher.next lexer.matcher s c = some t) :
      Scanning call start t here.next
  /-- The end of a lexeme to be ignored. -/
  | skip {start here : Cursor} {s : σ} (point : Scanning call start s here)
      (stuck : ∀ c ∈ here.rest.head?, Matcher.next lexer.matcher s c = none) (read : start.offset ≠ here.offset)
      (ignored : Matcher.verdict lexer.matcher s = .ignore) :
      Scanning call here (Matcher.initial lexer.matcher) here

/-- What cursors and errors tell in the scans of a text. -/
structure KeepsPlace : Prop where
  /-- Every point of every scan is at a place. -/
  points : ∀ call start here s, lexer.IsCalled text call → lexer.Scanning call start s here →
    ∃ place, here.IsAt text.toList place
  /-- A scan comes to an end at one of its points. -/
  stops : ∀ call, ∃ start s, lexer.Scanning call start s (lexer.nextToken call).value.cursor
  /-- An error tells the place where the scan came to its end. -/
  errors : ∀ call error, lexer.IsCalled text call → (lexer.nextToken call).value.result = .failure error →
    ∃ place, (lexer.nextToken call).value.cursor.IsAt text.toList place ∧ error.Tells place
  /-- And so does the error of a whole text. -/
  tokenize : ∀ error, (lexer.tokenize text).value = .error error → ∃ place : Place, place.IsIn text.toList ∧
    error.Tells place

variable {lexer text}

/-- **A point of a scan is at a place if the scan begins at one.** -/
theorem Scanning.exists_place {call start here : Cursor} {s : σ} (h : lexer.Scanning call start s here)
    (called : ∃ place : Place, place.IsIn text.toList ∧ place.cursor = call) :
    (∃ place : Place, place.IsIn text.toList ∧ place.cursor = start) ∧
      ∃ place : Place, place.IsIn text.toList ∧ place.cursor = here := by
  induction h with
  | call => exact ⟨called, called⟩
  | read _ _ _ ih =>
    obtain ⟨started, place, isIn, rfl⟩ := ih
    obtain ⟨isIn', there⟩ := isIn.next
    exact ⟨started, place.next, isIn', there⟩
  | skip _ _ _ _ ih => exact ⟨ih.2, ih.2⟩

/-- What the matcher takes is read point by point, up to a character that it does not take. -/
theorem Scanning.munch {call start here : Cursor} {s stop : σ} {lexeme : List Char}
    (h : lexer.Scanning call start s here) (taken : TableParsing.munch lexer.matcher s here.rest = (lexeme, stop)) :
    lexer.Scanning call start stop (here.advance lexeme.length) ∧
      here.rest = lexeme ++ (here.advance lexeme.length).rest ∧
      ∀ c ∈ (here.advance lexeme.length).rest.head?, Matcher.next lexer.matcher stop c = none := by
  induction text : here.rest generalizing here s lexeme with
  | nil =>
    rw [text, TableParsing.munch] at taken
    cases taken
    refine ⟨h, text.symm, fun c hc => ?_⟩
    rw [List.length_nil, Cursor.advance, text] at hc
    cases hc
  | cons c rest ih =>
    rw [text, TableParsing.munch] at taken
    cases after : Matcher.next lexer.matcher s c with
    | none =>
      rw [after] at taken
      cases taken
      refine ⟨h, text.symm, fun c' hc => ?_⟩
      rw [List.length_nil, Cursor.advance, text] at hc
      cases hc
      exact after
    | some t =>
      have onward : here.next.rest = rest := by rw [here.rest_next, text, List.drop_one, List.tail_cons]
      rw [after] at taken
      cases taken
      obtain ⟨point, whole, stuck⟩ := ih (h.read text after) (by rw [onward]) onward
      exact ⟨point, congrArg (c :: ·) whole, stuck⟩

/-- **How a scan comes to its end**: at one of its points, and an error is that of the lexeme that ends there. -/
theorem Scanning.exists_end {call start : Cursor}
    (h : lexer.Scanning call start (Matcher.initial lexer.matcher) start) :
    ∃ first s, lexer.Scanning call first s (lexer.nextToken start).value.cursor ∧
      ∀ error, (lexer.nextToken start).value.result = .failure error → ∃ lexeme,
        first.rest = lexeme ++ (lexer.nextToken start).value.cursor.rest ∧
          error = (lexer.nextToken start).value.cursor.error lexeme := by
  -- on what is left to read: a lexeme that is skipped leaves less
  induction count : start.rest.length using Nat.strongRecOn generalizing start with
  | _ length ih =>
    rw [nextToken]
    split
    · split
      · exact ⟨start, _, h, fun error failed => by cases failed⟩
      · refine ⟨start, _, h, fun error failed => ?_⟩
        cases failed
        exact ⟨[], rfl, rfl⟩
    · rename_i c cs stop taken
      obtain ⟨point, whole, stuck⟩ := h.munch taken
      have read : start.offset ≠ (start.advance (c :: cs).length).offset := by
        have size := c.utf8Size_pos
        rw [Cursor.offset_advance_length (c :: cs) whole, byteCount_cons]
        omega
      have less : (start.advance (c :: cs).length).rest.length < length := by
        rw [← count, whole, List.length_append, List.length_cons]
        omega
      dsimp only
      split
      · refine ⟨start, stop, point, fun error failed => ?_⟩
        cases failed
        exact ⟨c :: cs, whole, rfl⟩
      · rename_i ignored
        exact ih _ less (point.skip stuck read ignored) rfl
      · split
        · refine ⟨start, stop, point, fun error failed => ?_⟩
          cases failed
          exact ⟨c :: cs, whole, rfl⟩
        · exact ⟨start, stop, point, fun error failed => by cases failed⟩

theorem IsCalled.exists_place {call : Cursor} (h : lexer.IsCalled text call) :
    ∃ place : Place, place.IsIn text.toList ∧ place.cursor = call := by
  induction h with
  | first => exact ⟨.atLine [] text.toList, Place.isIn_beginning, Place.cursor_beginning text⟩
  | @again call _ ih =>
    have begun : lexer.Scanning call call _ call := .call
    obtain ⟨first, s, point, -⟩ := begun.exists_end
    exact (point.exists_place ih).2

theorem IsCalled.exists_tells {call : Cursor} (h : lexer.IsCalled text call) {error : ScanError}
    (failed : (lexer.nextToken call).value.result = .failure error) :
    ∃ place, (lexer.nextToken call).value.cursor.IsAt text.toList place ∧ error.Tells place := by
  have begun : lexer.Scanning call call _ call := .call
  obtain ⟨first, s, point, ended⟩ := begun.exists_end
  obtain ⟨lexeme, whole, rfl⟩ := ended error failed
  obtain ⟨⟨began, isIn, there⟩, place, isIn', there'⟩ := point.exists_place h.exists_place
  refine ⟨place, there' ▸ isIn'.isAt, ?_⟩
  rw [← there, ← there'] at whole
  have whole : began.back = lexeme ++ place.back := whole
  have whole : began.front ++ lexeme ++ place.back = place.front ++ place.back := by
    rw [isIn'.whole, List.append_assoc, ← whole, isIn.whole]
  rw [← there']
  exact isIn'.tells ⟨began.front, List.append_cancel_right whole⟩

theorem exists_isCalled_of_mem_scansFrom {scan : Logged (Scan α)} {calls : Nat} {cursor : Cursor}
    (called : lexer.IsCalled text cursor) (hmem : scan ∈ lexer.scansFrom calls cursor) :
    ∃ call, lexer.IsCalled text call ∧ scan = lexer.nextToken call := by
  induction calls generalizing cursor with
  | zero => cases hmem
  | succ calls ih =>
    rw [scansFrom] at hmem
    split at hmem
    · rcases List.mem_cons.mp hmem with first | later
      · exact ⟨cursor, called, first⟩
      · exact ih called.again later
    · exact ⟨cursor, called, List.mem_singleton.mp hmem⟩

/-- **Cursors and errors tell the bytes, lines and columns of the text**, at every point of every scan. -/
theorem keepsPlace (lexer : Lexer α ε) (text : String) : lexer.KeepsPlace text where
  points call start here s called point := by
    obtain ⟨-, place, isIn, there⟩ := point.exists_place called.exists_place
    exact ⟨place, there ▸ isIn.isAt⟩
  stops call := by
    have begun : lexer.Scanning call call _ call := .call
    obtain ⟨start, s, point, -⟩ := begun.exists_end
    exact ⟨start, s, point⟩
  errors call error called failed := called.exists_tells failed
  tokenize error failed := by
    obtain ⟨i, scan, there, fails, -⟩ := Except.exists_of_mapM_eq_error failed
    obtain ⟨call, called, rfl⟩ := exists_isCalled_of_mem_scansFrom .first (List.mem_of_getElem? there)
    have failed : (lexer.nextToken call).value.result = .failure error := by
      cases result : (lexer.nextToken call).value.result with
      | token | endOfInput =>
        rw [result] at fails
        cases fails
      | failure other =>
        rw [result] at fails
        cases fails
        rfl
    obtain ⟨place, isAt, tells⟩ := called.exists_tells failed
    exact ⟨place, isAt.isIn, tells⟩

/-- A lexeme over two lines, with characters of two bytes. -/
theorem keepsPlace_secondLine : ∃ lexer : Lexer Unit TransitionTable,
    (lexer.nextToken (.ofText "é\nλx\r\n")).value.result = .failure ⟨2, 2, "λx", "é\nλ", ⟨5, 6⟩⟩ ∧
      ∃ place : Place, place.IsIn "é\nλx\r\n".toList ∧
        (⟨2, 2, "λx", "é\nλ", ⟨5, 6⟩⟩ : ScanError).Tells place := by
  let table : TransitionTable :=
    ⟨⟨[.single '\n', .between 'é' 'λ']⟩, .rows #[#[none, some 1], #[some 2, none], #[none, some 3], #[]], #[]⟩
  have failed : ((⟨table, #[], 0, ()⟩ : Lexer Unit TransitionTable).nextToken (.ofText "é\nλx\r\n")).value.result =
      .failure ⟨2, 2, "λx", "é\nλ", ⟨5, 6⟩⟩ := by
    rw [nextToken]
    rfl
  obtain ⟨place, isAt, tells⟩ := (keepsPlace ⟨table, #[], 0, ()⟩ "é\nλx\r\n").errors _ _ .first failed
  exact ⟨⟨table, #[], 0, ()⟩, failed, place, isAt.isIn, tells⟩

end Lexer
end TableParsing
