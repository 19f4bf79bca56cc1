import TableParsing.Pattern.Operation
import TableParsing.Pattern.Error

/-! # Tokens of a pattern

A pattern is read from left to right.  Every reader below looks at the text that is left and says
what it found and what is left behind it (`Read`); the type of a read says that text was used up, which
is why reading ends.  A place in a pattern is named by **the text that is left** there, so that nothing is
counted before a fault is reported. -/

namespace TableParsing

/-- A place in a pattern: the text from there to the end. -/
abbrev PatternPlace : Type := List Char

/-- A fault at a place. -/
structure PatternFault where
  cause : PatternCause
  place : PatternPlace

/-- What was read at the front of `text`, and the text behind it. -/
structure Read (α : Type) (text : List Char) where
  value : α
  rest : List Char
  shorter : rest.length < text.length

/-- A read, seen from the text in front of an earlier read. -/
def Read.after {α β : Type} {text : List Char} (first : Read α text) (second : Read β first.rest) :
    Read β text where
  value := second.value
  rest := second.rest
  shorter := Nat.lt_trans second.shorter first.shorter

/-- The read of `value` from the one character `c`. -/
def Read.one {α : Type} (value : α) (c : Char) (rest : List Char) : Read α (c :: rest) where
  value := value
  rest := rest
  shorter := Nat.lt_succ_self _

/-- A read, seen from the text with one more character in front. -/
def Read.behind {α : Type} {text : List Char} (c : Char) (read : Read α text) :
    Read α (c :: text) where
  value := read.value
  rest := read.rest
  shorter := Nat.lt_succ_of_lt read.shorter

/-- The read with a value made from its own. -/
def Read.map {α β : Type} {text : List Char} (f : α → β) (read : Read α text) : Read β text where
  value := f read.value
  rest := read.rest
  shorter := read.shorter

/-- A token of a pattern: an operation, or a parenthesis that groups some. -/
inductive PatternToken where
  | operation (op : PatternOp)
  | opening
  | closing
deriving DecidableEq

/-- The characters that a backslash in front of `c` stands for.  Punctuation and characters outside
ASCII stand for themselves; a letter or digit without a meaning of its own is an error. -/
def escapeSet? (c : Char) : Option CharSet :=
  match c with
  | 'd' => some .digit
  | 'D' => some (CharSet.complement .digit)
  | 's' => some .space
  | 'S' => some (CharSet.complement .space)
  | 'w' => some .word
  | 'W' => some (CharSet.complement .word)
  | 'n' => some (.single '\n')
  | 'r' => some (.single '\r')
  | 't' => some (.single '\t')
  | c => if c.isAlphanum then none else some (.single c)

/-- The set for the backslash `slash`, with the text behind it. -/
def readEscape (slash : Char) (rest : List Char) :
    Except PatternFault (Read CharSet (slash :: rest)) :=
  match rest with
  | [] => .error ⟨.danglingEscape, [slash]⟩
  | c :: rest =>
    match escapeSet? c with
    | some set => .ok ((Read.one set c rest).behind slash)
    | none => .error ⟨.badEscape c, slash :: c :: rest⟩

/-! ## Character classes

Between brackets stand elements: characters, and sets written with a backslash.  A hyphen makes a range
only between two characters; elsewhere it stands for itself. -/

/-- An element of a character class. -/
inductive ClassElement where
  | char (c : Char)
  | set (set : CharSet)

/-- A set as an element: one that holds a single character is as good as that character. -/
def ClassElement.ofSet (s : CharSet) : ClassElement :=
  match s.ranges with
  | [r] => if r.lo = r.hi then char r.lo else set s
  | _ => set s

/-- The element that begins with `c`. -/
def readElement (c : Char) (rest : List Char) :
    Except PatternFault (Read ClassElement (c :: rest)) :=
  if c = '\\' then (readEscape c rest).map (·.map .ofSet)
  else .ok (.one (.char c) c rest)

/-- The upper end of a range, when the text in front of it is a hyphen that makes a range. -/
def readRangeEnd (text : List Char) : Except PatternFault (Option (Read ClassElement text)) :=
  match text with
  | '-' :: c :: rest =>
    if c = ']' then .ok none
    else (readElement c rest).map fun read => some (read.behind '-')
  | _ => .ok none

/-- The class whose elements so far make up `set`.  A closing bracket ends it, unless it is the first
element.  The bracket was opened at the place `opened`. -/
def readElements (opened : PatternPlace) (set : CharSet) (isFirst : Bool) (text : List Char) :
    Except PatternFault (Read CharSet text) :=
  match text with
  | [] => .error ⟨.unterminatedClass, opened⟩
  | c :: rest =>
    if c = ']' ∧ !isFirst then .ok (.one set c rest)
    else do
      let low ← readElement c rest
      match low.value with
      | .set s => return low.after (← readElements opened (set.union s) false low.rest)
      | .char lo =>
        match ← readRangeEnd low.rest with
        | none => return low.after (← readElements opened (set.insertChar lo) false low.rest)
        | some high =>
          match high.value with
          | .set s =>
            -- a hyphen in front of a set of several characters is an element
            let set := ((set.insertChar lo).insertChar '-').union s
            return (low.after high).after (← readElements opened set false high.rest)
          | .char hi =>
            match CharRange.ofBounds? lo hi with
            | none => .error ⟨.invertedRange lo hi, c :: rest⟩
            | some r =>
              return (low.after high).after (← readElements opened (set.insert r) false high.rest)
termination_by text.length
decreasing_by
  · exact low.shorter
  · exact low.shorter
  · exact (low.after high).shorter
  · exact (low.after high).shorter

/-- The elements of a class.  A circumflex in front of them asks for all other characters. -/
def readNegatable (opened : PatternPlace) (text : List Char) : Except PatternFault (Read CharSet text) :=
  match text with
  | '^' :: rest =>
    (readElements opened .empty true rest).map fun read => (read.map CharSet.complement).behind '^'
  | text => readElements opened .empty true text

/-- The class that an opening bracket begins; it has to hold a character. -/
def readClass (rest : List Char) : Except PatternFault (Read CharSet rest) := do
  let opened := '[' :: rest
  let read ← readNegatable opened rest
  if read.value.isEmpty then .error ⟨.emptyClass, opened⟩ else return read

/-! ## Repetitions -/

/-- The count in front of the text, if a digit stands there, and the text behind its digits. -/
def readCount (text : List Char) : Except PatternFault (Option Nat × List Char) :=
  let digits := text.takeWhile Char.isDigit
  let count := digits.foldl (fun n c => n * 10 + (c.toNat - '0'.toNat)) 0
  if digits.isEmpty then .ok (none, text)
  else if count > repeatLimit then .error ⟨.badRepeat .tooLarge, text⟩
  else .ok (some count, text.drop digits.length)

theorem length_le_of_readCount {text rest : List Char} {count : Option Nat}
    (h : readCount text = .ok (count, rest)) : rest.length ≤ text.length := by
  simp only [readCount] at h
  split at h
  · cases h; exact Nat.le_refl _
  · split at h
    · cases h
    · cases h; simp

/-- The repetition that an opening brace begins.  A second count below the first is taken for the
first. -/
def readRepeat (rest : List Char) : Except PatternFault (Read PatternOp rest) :=
  let bad (fault : RepeatFault) : Except PatternFault (Read PatternOp rest) :=
    .error ⟨.badRepeat fault, '\x7b' :: rest⟩
  let finish (min : Nat) (max : Option Nat) (tail : List Char)
      (h : tail.length < rest.length) : Except PatternFault (Read PatternOp rest) :=
    if max = some 0 then bad .notPositive else .ok ⟨.repeat min max, tail, h⟩
  match hmin : readCount rest with
  | .error fault => .error fault
  | .ok (none, _) => bad .missingCount
  | .ok (some _, []) => bad .missingSeparator
  | .ok (some min, separator :: tail) =>
    have hlt : tail.length < rest.length := length_le_of_readCount hmin
    if separator = '\x7d' then finish min (some min) tail hlt
    else if separator = ',' ∨ separator = ':' then
      match hmax : readCount tail with
      | .error fault => .error fault
      | .ok (_, []) => bad .missingBrace
      | .ok (max, close :: tail') =>
        if close = '\x7d' then
          finish min (max.map (Nat.max · min)) tail'
            (Nat.lt_trans (length_le_of_readCount hmax) hlt)
        else bad .missingBrace
    else bad .missingSeparator

/-! ## The whole pattern -/

/-- The token that begins with `c`. -/
def readToken (c : Char) (rest : List Char) :
    Except PatternFault (Read PatternToken (c :: rest)) :=
  let accept (set : CharSet) : PatternToken := .operation (.accept set)
  if c = '[' then (readClass rest).map fun read => (read.map accept).behind c
  else if c = '\x7b' then (readRepeat rest).map fun read => (read.map .operation).behind c
  else if c = '\\' then (readEscape c rest).map (·.map accept)
  else
    let token : PatternToken := match c with
      | '|' => .operation .alternate
      | '*' => .operation .star
      | '+' => .operation .plus
      | '?' => .operation .optional
      | '(' => .opening
      | ')' => .closing
      | '.' => accept .any
      | c => accept (.single c)
    .ok (.one token c rest)

/-- The tokens of the text, each with the place where it begins. -/
def readTokens (text : List Char) : Except PatternFault (List (PatternToken × PatternPlace)) :=
  match text with
  | [] => .ok []
  | c :: rest => do
    let read ← readToken c rest
    return (read.value, c :: rest) :: (← readTokens read.rest)
termination_by text.length
decreasing_by exact read.shorter

end TableParsing
