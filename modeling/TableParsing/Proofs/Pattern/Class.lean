import TableParsing.Proofs.CharSet.Registers
import TableParsing.Proofs.Lexer.Literal

/-! # Written classes

A range is written as its two ends with a hyphen between them, or as its one character, and punctuation is marked by a
backslash.  So **no sign of a class stands in front of a range**: neither a closing bracket nor a circumflex nor a hyphen
(`exists_readElement`).  A hyphen between two characters is one that was written there, and reading a range inserts it
(`Classes.insert`).

Ranges that are written between brackets are therefore inserted one after the other, in whatever order they stand there.
If they are those of a set in its shortest form, that set is read back (`class_reads_back`). -/

namespace TableParsing

/-- The ways to write a range: its two ends with a hyphen between them, or its one character. -/
inductive CharRange.Written : CharRange → List Char → Prop
  | ends (r : CharRange) : Written r (escaped r.lo ++ '-' :: escaped r.hi)
  | char (c : Char) : Written (.single c) (escaped c)

/-- The text of a class with these elements, complemented or not. -/
def classText (isNegated : Bool) (elements : List Char) : List Char :=
  '[' :: ((if isNegated then ['^'] else []) ++ (elements ++ [']']))

variable {c : Char} {r : CharRange} {set value : CharSet} {opened rest text : List Char} {isFirst : Bool}
  {ranges : List CharRange} {texts : List (List Char)}

/-! ## Elements -/

/-- **A character is read as itself**, and what it is written as begins with none of the signs of a class. -/
theorem exists_readElement (c : Char) (rest : List Char) : ∃ first behind, escaped c ++ rest = first :: behind ∧
    first ≠ ']' ∧ first ≠ '^' ∧ first ≠ '-' ∧
    ∃ read, readElement first behind = .ok read ∧ read.value = .char c ∧ read.rest = rest := by
  cases h : isPunctuation c with
  | true =>
    refine ⟨'\\', c :: rest, ?_, by decide, by decide, by decide, ?_⟩
    · rw [escaped, h, if_pos rfl]
      rfl
    · have escape : readEscape '\\' (c :: rest) = .ok ((Read.one (.single c) c rest).behind '\\') := by
        rw [readEscape, escapeSet?_of_isPunctuation h]
      refine ⟨_, by rw [readElement, if_pos rfl, escape]; rfl, ?_, rfl⟩
      exact if_pos rfl
  | false =>
    have ne (sign : Char) (punctuation : isPunctuation sign = true) : c ≠ sign := by
      rintro rfl
      exact Bool.noConfusion (h.symm.trans punctuation)
    refine ⟨c, rest, ?_, ne _ (by decide), ne _ (by decide), ne _ (by decide), .one (.char c) c rest, ?_, rfl, rfl⟩
    · rw [escaped, h, if_neg Bool.false_ne_true]
      rfl
    · rw [readElement, if_neg (ne _ (by decide))]

theorem readRangeEnd_eq_none (alone : text.head? ≠ some '-') : readRangeEnd text = .ok none := by
  rw [readRangeEnd.eq_def]
  split
  · exact absurd rfl alone
  · rfl

/-- Behind a hyphen a character is the upper end of a range. -/
theorem exists_readRangeEnd (h : text = '-' :: (escaped c ++ rest)) :
    ∃ read, readRangeEnd text = .ok (some read) ∧ read.value = .char c ∧ read.rest = rest := by
  obtain ⟨first, behind, whole, notClosing, -, -, read, hread, isChar, rfl⟩ := exists_readElement c rest
  rw [whole] at h
  subst h
  refine ⟨read.behind '-', ?_, isChar, rfl⟩
  rw [readRangeEnd, if_neg notClosing, hread]
  rfl

/-- Whether the elements that begin the text, added to `set`, make up the class `value` with `rest` behind it. -/
def Classes (opened : PatternPlace) (set : CharSet) (isFirst : Bool) (text : List Char) (value : CharSet)
    (rest : List Char) : Prop :=
  ∃ read, readElements opened set isFirst text = .ok read ∧ read.value = value ∧ read.rest = rest

namespace Classes
variable {behind : List Char}

theorem close (opened : PatternPlace) (set : CharSet) (rest : List Char) :
    Classes opened set false (']' :: rest) set rest := by
  refine ⟨.one set ']' rest, ?_, rfl, rfl⟩
  rw [readElements, if_pos ⟨rfl, rfl⟩]

/-- A character without a hyphen behind it is added. -/
theorem char (c : Char) (isFirst : Bool) (alone : behind.head? ≠ some '-')
    (h : Classes opened (set.insertChar c) false behind value rest) :
    Classes opened set isFirst (escaped c ++ behind) value rest := by
  obtain ⟨first, after, whole, notClosing, -, -, low, hlow, isChar, rfl⟩ := exists_readElement c behind
  obtain ⟨read, hread, rfl, rfl⟩ := h
  rw [whole]
  refine ⟨low.after read, ?_, rfl, rfl⟩
  rw [readElements, if_neg fun h => notClosing h.1]
  refine Except.bind_eq_ok_iff.mpr ⟨low, hlow, ?_⟩
  rw [isChar]
  refine Except.bind_eq_ok_iff.mpr ⟨none, readRangeEnd_eq_none alone, ?_⟩
  exact Except.bind_eq_ok_iff.mpr ⟨read, hread, rfl⟩

/-- Two characters with a hyphen between them are the ends of a range, which is added. -/
theorem ends (r : CharRange) (isFirst : Bool) (h : Classes opened (set.insert r) false behind value rest) :
    Classes opened set isFirst (escaped r.lo ++ '-' :: escaped r.hi ++ behind) value rest := by
  rw [List.append_assoc, List.cons_append]
  obtain ⟨first, after, whole, notClosing, -, -, low, hlow, isLow, onward⟩ :=
    exists_readElement r.lo ('-' :: (escaped r.hi ++ behind))
  obtain ⟨high, hhigh, isHigh, rfl⟩ := exists_readRangeEnd onward
  obtain ⟨read, hread, rfl, rfl⟩ := h
  have inOrder : CharRange.ofBounds? r.lo r.hi = some r := CharRange.ofBounds?_eq_some_iff.mpr ⟨rfl, rfl⟩
  rw [whole]
  refine ⟨(low.after high).after read, ?_, rfl, rfl⟩
  rw [readElements, if_neg fun h => notClosing h.1]
  refine Except.bind_eq_ok_iff.mpr ⟨low, hlow, ?_⟩
  rw [isLow]
  refine Except.bind_eq_ok_iff.mpr ⟨some high, hhigh, ?_⟩
  dsimp only
  rw [isHigh]
  dsimp only
  rw [inOrder]
  exact Except.bind_eq_ok_iff.mpr ⟨read, hread, rfl⟩

end Classes

/-! ## Ranges -/

/-- What a range is written as begins with none of the signs of a class. -/
theorem CharRange.Written.exists_first (h : r.Written text) (rest : List Char) :
    ∃ first behind, text ++ rest = first :: behind ∧ first ≠ '^' ∧ first ≠ '-' := by
  cases h with
  | ends =>
    obtain ⟨first, behind, whole, -, circumflex, hyphen, -⟩ := exists_readElement r.lo ('-' :: escaped r.hi ++ rest)
    exact ⟨first, behind, by rw [← whole, List.append_assoc], circumflex, hyphen⟩
  | char c =>
    obtain ⟨first, behind, whole, -, circumflex, hyphen, -⟩ := exists_readElement c rest
    exact ⟨first, behind, whole, circumflex, hyphen⟩

/-- **Reading a range inserts it.** -/
theorem Classes.insert {behind : List Char} (h : r.Written text) (isFirst : Bool) (alone : behind.head? ≠ some '-')
    (onward : Classes opened (set.insert r) false behind value rest) :
    Classes opened set isFirst (text ++ behind) value rest := by
  cases h with
  | ends => exact .ends r isFirst onward
  | char c => exact .char c isFirst alone onward

/-- **Ranges are inserted one after the other.** -/
theorem classes_flatten (written : List.Forall₂ CharRange.Written ranges texts) (opened : PatternPlace) (set : CharSet)
    (isFirst : Bool) (some : isFirst = true → ranges ≠ []) :
    Classes opened set isFirst (texts.flatten ++ [']']) (ranges.foldl CharSet.insert set) [] := by
  induction written generalizing set isFirst with
  | nil =>
    cases isFirst with
    | true => exact absurd rfl (some rfl)
    | false => exact .close opened set []
  | @cons r text ranges texts first others ih =>
    have alone : (texts.flatten ++ [']']).head? ≠ Option.some '-' := by
      cases others with
      | nil => decide
      | cons h _ =>
        obtain ⟨next, behind, whole, -, hyphen⟩ := h.exists_first _
        rw [List.flatten_cons, List.append_assoc, whole]
        exact fun same => hyphen (Option.some.inj same)
    rw [List.flatten_cons, List.append_assoc]
    exact .insert first isFirst alone (ih (set.insert r) false nofun)

/-! ## Whole classes -/

/-- What a class makes of the set of its elements. -/
def classSet (isNegated : Bool) (set : CharSet) : CharSet := if isNegated then set.complement else set

theorem readNegatable_of_head? (h : text.head? ≠ some '^') :
    readNegatable opened text = readElements opened .empty true text := by
  rw [readNegatable.eq_def]
  split
  · exact absurd rfl h
  · rfl

/-- The elements of a class with a circumflex and of one without. -/
theorem exists_readNegatable (written : List.Forall₂ CharRange.Written ranges texts) (some : ranges ≠ [])
    (opened : PatternPlace) (isNegated : Bool) :
    ∃ read, readNegatable opened ((if isNegated then ['^'] else []) ++ (texts.flatten ++ [']'])) = .ok read ∧
      read.value = classSet isNegated (ranges.foldl CharSet.insert .empty) ∧ read.rest = [] := by
  obtain ⟨read, hread, value, rest⟩ := classes_flatten written opened .empty true fun _ => some
  cases isNegated with
  | true =>
    refine ⟨(read.map CharSet.complement).behind '^', ?_, congrArg CharSet.complement value, rest⟩
    change (readElements opened .empty true (texts.flatten ++ [']'])).map _ = _
    rw [hread]
    rfl
  | false =>
    refine ⟨read, ?_, value, rest⟩
    have plain : (texts.flatten ++ [']']).head? ≠ Option.some '^' := by
      cases written with
      | nil => exact absurd rfl some
      | cons h _ =>
        obtain ⟨first, behind, whole, circumflex, -⟩ := h.exists_first _
        rw [List.flatten_cons, List.append_assoc, whole]
        exact fun same => circumflex (Option.some.inj same)
    exact (readNegatable_of_head? plain).trans hread

/-- The token of a class: the set of its ranges, which must not be empty. -/
theorem readTokens_classText (written : List.Forall₂ CharRange.Written ranges texts) (some : ranges ≠ [])
    (isNegated : Bool) (value : classSet isNegated (ranges.foldl CharSet.insert .empty) = set) :
    readTokens (classText isNegated texts.flatten) =
      if set.isEmpty then .error ⟨.emptyClass, classText isNegated texts.flatten⟩
      else .ok [(.operation (.accept set), classText isNegated texts.flatten)] := by
  obtain ⟨read, hread, rfl, rest⟩ := value ▸ exists_readNegatable written some (classText isNegated texts.flatten) isNegated
  have cls : readClass ((if isNegated then ['^'] else []) ++ (texts.flatten ++ [']'])) =
      if read.value.isEmpty then .error ⟨.emptyClass, classText isNegated texts.flatten⟩ else .ok read := by
    change (readNegatable (classText isNegated texts.flatten) _ >>= _) = _
    rw [hread]
    rfl
  rw [classText, readTokens, readToken.eq_def, if_pos rfl, cls]
  split
  · rfl
  · change (do return (PatternToken.operation (.accept read.value), _) :: (← readTokens read.rest)) = _
    rw [rest, readTokens]
    rfl

/-- **A class of written ranges is the set of their characters**, if it has any. -/
theorem ofPattern_classText (written : List.Forall₂ CharRange.Written ranges texts) (some : ranges ≠ [])
    (isNegated : Bool) (value : classSet isNegated (ranges.foldl CharSet.insert .empty) = set) {pattern : String}
    (text : pattern.toList = classText isNegated texts.flatten) :
    PatternOp.ofPattern pattern = if set.isEmpty then .error ⟨pattern, 0, .emptyClass⟩ else .ok [.accept set] := by
  have tokens := readTokens_classText written some isNegated value
  rw [← text] at tokens
  cases empty : set.isEmpty with
  | true =>
    rw [if_pos empty] at tokens
    have nonempty : pattern.toList.isEmpty = false := by rw [text]; rfl
    rw [PatternOp.ofPattern, nonempty, if_neg Bool.false_ne_true, tokens, if_pos rfl]
    change Except.error (PatternError.mk pattern (pattern.toList.length - pattern.toList.length) .emptyClass) = _
    rw [Nat.sub_self]
  | false =>
    rw [if_neg (Bool.eq_false_iff.mp empty)] at tokens
    have spelled : bare [(PatternToken.operation (.accept set), pattern.toList)] =
      (Phrase.ofSequence (.ofRepetition (.ofAtom (.accept set)))).tokens := rfl
    rw [ofPattern_eq tokens, Phrase.operationsOf_eq _ _ spelled]
    rfl

/-! ## Sets in their shortest form -/

namespace CharSet

/-- **A gapped set is made anew from its ranges in any order.** -/
theorem foldl_insert_of_perm (h : Gapped set.ranges) (perm : ranges.Perm set.ranges) :
    ranges.foldl insert empty = set := by
  apply eq_of_gapped (gapped_union .nil ⟨ranges⟩) h
  intro c
  have inserted : c ∈ empty.union ⟨ranges⟩ ↔ c ∈ empty ∨ ∃ r ∈ ranges, c ∈ r := mem_union
  have same : (∃ r ∈ ranges, c ∈ r) ↔ ∃ r ∈ set.ranges, c ∈ r := exists_congr fun r => and_congr_left' perm.mem_iff
  exact inserted.trans ((or_iff_right not_mem_empty).trans same)

theorem isEmpty_complement_iff (h : set.WellFormed) :
    set.complement.isEmpty = true ↔ ∀ c, c ≠ '\x00' → c ∈ set := by
  have none : set.complement.isEmpty = true ↔ ∀ c, c ∉ set.complement := by
    rw [isEmpty, List.isEmpty_iff]
    constructor
    · rintro none c ⟨r, hr, -⟩
      rw [none] at hr
      cases hr
    · exact fun none => List.eq_nil_iff_forall_not_mem.mpr fun r hr => none r.lo ⟨r, hr, r.lo_mem⟩
  rw [none]
  simp only [mem_complement h, not_and, not_not]

end CharSet

/-- **A class is read back**: a set in its shortest form is what stands between brackets when its ranges are written
there in any order, and its complement if a circumflex comes first, unless that would leave nothing. -/
theorem class_reads_back (shortest : Gapped set.ranges) (nonempty : set.ranges ≠ []) (order : ranges.Perm set.ranges)
    (written : List.Forall₂ CharRange.Written ranges texts) :
    let plain := String.ofList ('[' :: (texts.flatten ++ [']']))
    let negated := String.ofList ('[' :: '^' :: (texts.flatten ++ [']']))
    PatternOp.ofPattern plain = .ok [.accept set] ∧
      ((∀ c, c ≠ '\x00' → c ∈ set) → PatternOp.ofPattern negated = .error ⟨negated, 0, .emptyClass⟩) ∧
      (¬(∀ c, c ≠ '\x00' → c ∈ set) → PatternOp.ofPattern negated = .ok [.accept set.complement]) := by
  intro plain negated
  have some : ranges ≠ [] := mt (fun none => List.nil_perm.mp (none ▸ order)) nonempty
  have value := CharSet.foldl_insert_of_perm shortest order
  have all := CharSet.isEmpty_complement_iff shortest.ascending
  have text : plain.toList = classText false texts.flatten := String.toList_ofList
  have text' : negated.toList = classText true texts.flatten := String.toList_ofList
  have complement := ofPattern_classText written some true (congrArg CharSet.complement value) text'
  refine ⟨?_, fun covers => ?_, fun covers => ?_⟩
  · rw [ofPattern_classText written some false value text, if_neg]
    exact mt List.isEmpty_iff.mp nonempty
  · rw [complement, if_pos (all.mpr covers)]
  · rw [complement, if_neg (mt all.mp covers)]

/-- The signs of a class as its elements, the last range first. -/
theorem class_reads_back_signs :
    let set : CharSet := ⟨[.single '-', .between '\\' '^', .single 'é']⟩
    Gapped set.ranges ∧ set.ranges ≠ [] ∧ set.ranges.reverse.Perm set.ranges ∧
    List.Forall₂ CharRange.Written set.ranges.reverse [['é'], ['\\', '\\', '-', '\\', '^'], ['\\', '-']] ∧
    PatternOp.ofPattern "[é\\\\-\\^\\-]" = .ok [.accept set] ∧
    PatternOp.ofPattern "[^é\\\\-\\^\\-]" = .ok [.accept set.complement] := by
  intro set
  have shortest : Gapped set.ranges := by
    refine .cons (fun r hr => ?_) (.cons (fun r hr => ?_) (.cons nofun .nil))
    · refine ⟨'0', by decide, ?_⟩
      rcases List.mem_pair.mp hr with rfl | rfl <;> decide
    · exact ⟨'a', by decide, List.mem_singleton.mp hr ▸ by decide⟩
  have order : set.ranges.reverse.Perm set.ranges := List.reverse_perm _
  have written : List.Forall₂ CharRange.Written set.ranges.reverse
      [['é'], ['\\', '\\', '-', '\\', '^'], ['\\', '-']] :=
    .cons (.char 'é') (.cons (.ends (.between '\\' '^')) (.cons (.char '-') .nil))
  have nonempty : set.ranges ≠ [] := List.cons_ne_nil _ _
  obtain ⟨plain, -, negated⟩ := class_reads_back shortest nonempty order written
  have lacking : ¬∀ c, c ≠ '\x00' → c ∈ set := fun covers =>
    absurd (CharSet.contains_iff.mpr (covers 'a' (by decide))) (by decide)
  exact ⟨shortest, nonempty, order, written, plain, negated lacking⟩

end TableParsing
