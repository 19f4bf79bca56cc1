import TableParsing.CharSet.Basic

/-! # Printed character sets

A range is printed as its two ends with a hyphen between them, or as its one character, and a set as
its ranges between brackets.  A character stands between apostrophes.  One that would not be seen,
or that would join the character in front of it, is written by its code point. -/

namespace TableParsing

/-- Ranges of characters that are not printed as they are: controls, marks that combine with the
character in front of them, invisible format characters, private and unassigned code points. -/
def hiddenRanges : List CharRange :=
  [.between '\x00' '\x1f', .between '\x7f' '\u00a0', .single '\u00ad',
    .between '\u0300' '\u036f', .between '\u0483' '\u0489', .between '\u1ab0' '\u1aff',
    .between '\u1dc0' '\u1dff', .between '\u2000' '\u200f', .between '\u2028' '\u202f',
    .between '\u205f' '\u206f', .between '\u20d0' '\u20ff', .single '\u3000',
    .between '\ud7fc' '\uf8ff', .between '\ufe00' '\ufe0f', .between '\ufe20' '\ufe2f',
    .single '\ufeff', .between '\ufff0' '\ufffb', .between '\ufffe' '\uffff',
    .between (Char.ofNat 0xe0000) (Char.ofNat 0x10ffff)]

/-- Whether `c` is seen as a character of its own. -/
def isPrintable (c : Char) : Bool := hiddenRanges.all fun r => !r.contains c

/-- The character between apostrophes.  NUL, tabulator, line feed and carriage return have short
names; backslash and apostrophe are marked by a backslash. -/
def quoteChar (c : Char) : String :=
  let body :=
    if c = '\x00' then "\\0"
    else if c = '\t' then "\\t"
    else if c = '\n' then "\\n"
    else if c = '\r' then "\\r"
    else if c = '\x27' ∨ c = '\\' then String.ofList ['\\', c]
    else if isPrintable c then c.toString
    else "\\u\x7b" ++ String.ofList (Nat.toDigits 16 c.toNat) ++ "\x7d"
  "'" ++ body ++ "'"

/-- The range as its one character or its two ends. -/
def CharRange.render (r : CharRange) : String :=
  if r.lo = r.hi then quoteChar r.lo else quoteChar r.lo ++ "-" ++ quoteChar r.hi

/-- The ranges of the set between brackets. -/
def CharSet.render (set : CharSet) : String :=
  "[" ++ " ".intercalate (set.ranges.map CharRange.render) ++ "]"

end TableParsing
