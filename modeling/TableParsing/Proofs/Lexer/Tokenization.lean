import TableParsing.Proofs.Lexer.Engines
import TableParsing.Proofs.Lexer.Munch

/-! # Tokenization

What a scan of some input has to come to is a relation between the rules and the input, in which no automaton occurs but
those of the single patterns (`LexerRules.Scans`).  Every scan takes the longest viable front of what is left; the rules
that accept it make a token, skip it, or leave a fault.  Tokenizing is one scan after the other up to the first that
comes to no token (`LexerRules.Tokenizes`).  There is one way at most to split an input into tokens
(`LexerRules.Tokenizes.unique`).

**A lexer of the rules scans and tokenizes as the rules say** (`LexerRules.compile_governs`), whatever matcher it runs
and whatever options it is made with. -/

namespace TableParsing

variable {α : Type}

/-! ## The specification -/

namespace LexerRules

/-- What a scan of `input`, in front of which there are `offset` bytes, comes to, with the offset where it stops and the
input that is left there. -/
inductive Scans (rules : LexerRules α) : Nat → List Char → ScanResult α → Nat → List Char → Prop where
  /-- The end of the input. -/
  | endOfInput {offset terminal : Nat} {value : α} {span : TextSpan}
      (declared : rules.endOfInput = some (terminal, value)) (start : span.start.toNat = offset)
      (stop : span.stop.toNat = offset) :
      Scans rules offset [] (.endOfInput ⟨terminal, "", span, value⟩) offset []
  /-- Nothing can be read, or no rule accepts what has been read. -/
  | failure {offset : Nat} {lexeme rest : List Char} {error : ScanError} (more : lexeme ++ rest ≠ [])
      (munches : rules.Munches (lexeme ++ rest) lexeme)
      (refused : lexeme = [] ∨ ∀ rule ∈ rules.rules, ¬rule.Accepts lexeme)
      (text : error.lexeme = String.ofList lexeme) (start : error.span.start.toNat = offset + byteCount lexeme) :
      Scans rules offset (lexeme ++ rest) (.failure error) (offset + byteCount lexeme) rest
  /-- The first rule for tokens that accepts what has been read. -/
  | token {offset index : Nat} {lexeme rest : List Char} {rule : LexerRule α} {kind : TokenClass α} {span : TextSpan}
      (read : lexeme ≠ []) (munches : rules.Munches (lexeme ++ rest) lexeme)
      (there : rules.rules[index]? = some rule) (isToken : rule.token = some kind) (accepts : rule.Accepts lexeme)
      (first : ∀ j < index, ∀ earlier, rules.rules[j]? = some earlier → earlier.Accepts lexeme → earlier.token = none)
      (start : span.start.toNat = offset) (stop : span.stop.toNat = offset + byteCount lexeme) :
      Scans rules offset (lexeme ++ rest)
        (.token ⟨kind.terminal, String.ofList lexeme, span, kind.value (String.ofList lexeme)⟩)
        (offset + byteCount lexeme) rest
  /-- Only rules to be ignored accept what has been read, and the scan begins anew behind it. -/
  | skip {offset offset' : Nat} {lexeme rest rest' : List Char} {result : ScanResult α} (read : lexeme ≠ [])
      (munches : rules.Munches (lexeme ++ rest) lexeme) (accepted : ∃ rule ∈ rules.rules, rule.Accepts lexeme)
      (ignored : ∀ rule ∈ rules.rules, rule.Accepts lexeme → rule.token = none)
      (onward : Scans rules (offset + byteCount lexeme) rest result offset' rest') :
      Scans rules offset (lexeme ++ rest) result offset' rest'

/-- What the scans of an input come to, one after the other. -/
inductive Tokenizes (rules : LexerRules α) : Nat → List Char → Except ScanError (List (Token α)) → Prop where
  | finished {offset offset' : Nat} {input rest : List Char} {token : Token α}
      (scans : Scans rules offset input (.endOfInput token) offset' rest) :
      Tokenizes rules offset input (.ok [token])
  | failed {offset offset' : Nat} {input rest : List Char} {error : ScanError}
      (scans : Scans rules offset input (.failure error) offset' rest) :
      Tokenizes rules offset input (.error error)
  | next {offset offset' : Nat} {input rest : List Char} {token : Token α} {result : Except ScanError (List (Token α))}
      (scans : Scans rules offset input (.token token) offset' rest) (onward : Tokenizes rules offset' rest result) :
      Tokenizes rules offset input (result.map (token :: ·))

end LexerRules

/-! ## Places -/

@[simp]
theorem byteCount_nil : byteCount [] = 0 := rfl

@[simp]
theorem byteCount_cons (c : Char) (text : List Char) : byteCount (c :: text) = c.utf8Size + byteCount text := rfl

theorem byteCount_append (front back : List Char) : byteCount (front ++ back) = byteCount front + byteCount back := by
  induction front with
  | nil => simp
  | cons c front ih =>
    simp [ih]
    omega

theorem Cursor.offset_advance (cursor : Cursor) (n : Nat) :
    (cursor.advance n).offset = cursor.offset + byteCount (cursor.rest.take n) := by
  induction n generalizing cursor with
  | zero => simp [advance]
  | succ n ih =>
    rw [advance, ih, next]
    cases rest : cursor.rest with
    | nil => simp [rest]
    | cons c text =>
      dsimp only
      split <;> simp [Nat.add_assoc]

section Behind
variable {cursor : Cursor} (front : List Char) {back : List Char} (h : cursor.rest = front ++ back)
include h

theorem Cursor.rest_advance_length : (cursor.advance front.length).rest = back := by
  rw [rest_advance, h, List.drop_left]

theorem Cursor.offset_advance_length : (cursor.advance front.length).offset = cursor.offset + byteCount front := by
  rw [offset_advance, h, List.take_left]

end Behind

/-- Offsets of inputs that are not too long are kept. -/
theorem toNat_offsetOf {count : Nat} (h : count < UInt32.size) : (offsetOf count).toNat = count := by
  rw [offsetOf, if_pos h]
  exact Nat.mod_eq_of_lt h

theorem TextSpan.eq_of_toNat {span other : TextSpan} (start : span.start.toNat = other.start.toNat)
    (stop : span.stop.toNat = other.stop.toNat) : span = other := by
  cases span
  cases other
  exact congr (congrArg _ (UInt32.toNat_inj.mp start)) (UInt32.toNat_inj.mp stop)

/-! ## Scans -/

namespace LexerRules.Scans

variable {rules : LexerRules α} {offset offset' : Nat} {input rest : List Char} {result : ScanResult α}

/-- No byte is lost. -/
theorem offset_add (h : Scans rules offset input result offset' rest) :
    offset' + byteCount rest = offset + byteCount input := by
  induction h with
  | endOfInput => rfl
  | failure | token => rw [byteCount_append, Nat.add_assoc]
  | skip _ _ _ _ _ ih => rw [ih, byteCount_append, Nat.add_assoc]

theorem length_le (h : Scans rules offset input result offset' rest) : rest.length ≤ input.length := by
  induction h with
  | endOfInput => rfl
  | failure | token => simp
  | skip _ _ _ _ _ ih =>
    rw [List.length_append]
    omega

/-- A token takes a character at least. -/
theorem length_lt {token : Token α} (h : Scans rules offset input (.token token) offset' rest) :
    rest.length < input.length := by
  cases h with
  | token read =>
    have := List.length_pos_iff.mpr read
    rw [List.length_append]
    omega
  | skip read _ _ _ onward =>
    have := List.length_pos_iff.mpr read
    have := onward.length_le
    rw [List.length_append]
    omega

/-- The first rule for tokens that accepts a text is one. -/
theorem eq_of_first {lexeme : List Char} {i j : Nat} {rule rule' : LexerRule α} {kind kind' : TokenClass α}
    (there : rules.rules[i]? = some rule) (there' : rules.rules[j]? = some rule') (isToken : rule.token = some kind)
    (isToken' : rule'.token = some kind') (accepts : rule.Accepts lexeme) (accepts' : rule'.Accepts lexeme)
    (first : ∀ j < i, ∀ earlier, rules.rules[j]? = some earlier → earlier.Accepts lexeme → earlier.token = none)
    (first' : ∀ i < j, ∀ earlier, rules.rules[i]? = some earlier → earlier.Accepts lexeme → earlier.token = none) :
    kind = kind' := by
  rcases Nat.lt_trichotomy i j with before | rfl | behind
  · cases isToken.symm.trans (first' i before rule there accepts)
  · cases there.symm.trans there'
    exact Option.some.inj (isToken.symm.trans isToken')
  · cases isToken'.symm.trans (first j behind rule' there' accepts')

/-- **The rules determine what a scan comes to**, but for the details of a failure. -/
theorem unique {result' : ScanResult α} {stop : Nat} {left : List Char}
    (h : Scans rules offset input result offset' rest) (success : ∀ e, result ≠ .failure e)
    (h' : Scans rules offset input result' stop left) : result' = result ∧ stop = offset' ∧ left = rest := by
  induction h with
  | endOfInput declared start stop =>
    generalize same : [] = input at h'
    cases h' with
    | endOfInput declared' start' stop' =>
      cases declared.symm.trans declared'
      rw [TextSpan.eq_of_toNat (start'.trans start.symm) (stop'.trans stop.symm)]
      exact ⟨rfl, rfl, rfl⟩
    | failure more => exact absurd same.symm more
    | token read | skip read => exact absurd (List.append_eq_nil_iff.mp same.symm).1 read
  | failure => exact absurd rfl (success _)
  | @token offset index lexeme rest rule kind span read munches there isToken accepts first start stop =>
    generalize same : lexeme ++ rest = input at h'
    cases h' with
    | endOfInput => exact absurd (List.append_eq_nil_iff.mp same).1 read
    | failure _ munches' refused =>
      obtain ⟨rfl, rfl⟩ := munches.eq_of_append_eq munches' same
      rcases refused with none | none
      · exact absurd none read
      · exact absurd accepts (none rule (List.mem_of_getElem? there))
    | token _ munches' there' isToken' accepts' first' start' stop' =>
      obtain ⟨rfl, rfl⟩ := munches.eq_of_append_eq munches' same
      obtain rfl := eq_of_first there there' isToken isToken' accepts accepts' first first'
      rw [TextSpan.eq_of_toNat (start'.trans start.symm) (stop'.trans stop.symm)]
      exact ⟨rfl, rfl, rfl⟩
    | skip _ munches' _ ignored' =>
      obtain ⟨rfl, rfl⟩ := munches.eq_of_append_eq munches' same
      cases isToken.symm.trans (ignored' rule (List.mem_of_getElem? there) accepts)
  | @skip offset offset' lexeme rest rest' result read munches accepted ignored onward ih =>
    generalize same : lexeme ++ rest = input at h'
    cases h' with
    | endOfInput => exact absurd (List.append_eq_nil_iff.mp same).1 read
    | failure _ munches' refused =>
      obtain ⟨rfl, rfl⟩ := munches.eq_of_append_eq munches' same
      obtain ⟨rule, hrule, accepts⟩ := accepted
      rcases refused with none | none
      · exact absurd none read
      · exact absurd accepts (none rule hrule)
    | token _ munches' there' isToken' accepts' =>
      obtain ⟨rfl, rfl⟩ := munches.eq_of_append_eq munches' same
      cases isToken'.symm.trans (ignored _ (List.mem_of_getElem? there') accepts')
    | skip _ munches' _ _ onward' =>
      obtain ⟨rfl, rfl⟩ := munches.eq_of_append_eq munches' same
      exact ih success onward'

end LexerRules.Scans

/-- **The rules determine the tokens of an input**, if it can be split into tokens. -/
theorem LexerRules.Tokenizes.unique {rules : LexerRules α} {offset : Nat} {input : List Char} {tokens : List (Token α)}
    {result' : Except ScanError (List (Token α))} (h : rules.Tokenizes offset input (.ok tokens))
    (h' : rules.Tokenizes offset input result') : result' = .ok tokens := by
  generalize success : Except.ok tokens = result at h
  induction h generalizing tokens result' with
  | finished scans =>
    cases success
    cases h' with
    | finished scans' => rw [ScanResult.endOfInput.inj (scans.unique nofun scans').1]
    | failed scans' | next scans' => cases (scans.unique nofun scans').1
  | failed => cases success
  | @next offset offset' input rest token result scans onward ih =>
    cases result with
    | error e => cases success
    | ok others =>
      cases success
      cases h' with
      | finished scans' | failed scans' => cases (scans.unique nofun scans').1
      | next scans' onward' =>
        obtain ⟨same, rfl, rfl⟩ := scans.unique nofun scans'
        cases same
        rw [ih onward' rfl]

namespace Lexer

variable {ε σ : Type} [Matcher ε σ] {lexer : Lexer α ε} {rules : LexerRules α}

/-- What makes a lexer one of some rules. -/
structure IsOf (lexer : Lexer α ε) (rules : LexerRules α) : Prop where
  agree : ∃ patterns, rules.patterns = .ok patterns ∧ Matcher.Agree (RankedNfa.ofPatterns patterns) lexer.matcher
  classes : lexer.classes = (rules.rules.map (·.token)).toArray
  endOfInput : rules.endOfInput = some (lexer.endTerminal, lexer.endValue)

namespace IsOf
variable (h : lexer.IsOf rules)
include h

theorem getD_classes {index : Nat} {rule : LexerRule α} (hrule : rules.rules[index]? = some rule) :
    lexer.classes.getD index none = rule.token := by
  rw [h.classes, Array.getD_eq_getD_getElem?, List.getElem?_toArray, List.getElem?_map, hrule]
  rfl

section Lexeme
variable {cursor after : Cursor} {lexeme : List Char} (whole : lexeme ++ after.rest = cursor.rest)
  (place : after.offset = cursor.offset + byteCount lexeme) (short : after.offset < UInt32.size)
  (munches : rules.Munches cursor.rest lexeme)
include whole place short munches

omit h in
/-- A scan fails behind what no rule accepts. -/
theorem scans_failure (more : cursor.rest ≠ []) (refused : lexeme = [] ∨ ∀ rule ∈ rules.rules, ¬rule.Accepts lexeme) :
    rules.Scans cursor.offset cursor.rest (.failure (after.error lexeme)) after.offset after.rest := by
  have start : (offsetOf after.offset).toNat = cursor.offset + byteCount lexeme := (toNat_offsetOf short).trans place
  rw [← whole] at more munches ⊢
  rw [place]
  exact .failure more munches refused rfl start

/-- The rule that decides has a class of tokens, and the scan comes to a token of it. -/
theorem exists_scans_token {index : Nat} (read : lexeme ≠ []) (decides : rules.Decides lexeme (.token index)) :
    ∃ kind, lexer.classes.getD index none = some kind ∧
      rules.Scans cursor.offset cursor.rest (.token ⟨kind.terminal, String.ofList lexeme,
        .ofLength cursor.offset (after.offset - cursor.offset), kind.value (String.ofList lexeme)⟩)
        after.offset after.rest := by
  obtain ⟨rule, kind, hrule, isToken, accepts, first⟩ := decides
  refine ⟨kind, (h.getD_classes hrule).trans isToken, ?_⟩
  rw [place] at short ⊢
  rw [Nat.add_sub_cancel_left]
  rw [← whole] at munches ⊢
  exact .token read munches hrule isToken accepts first (toNat_offsetOf (by omega)) (toNat_offsetOf short)

end Lexeme

/-- **A scan comes to what the rules say.** -/
theorem scans_nextToken (cursor : Cursor) (short : cursor.offset + byteCount cursor.rest < UInt32.size) :
    rules.Scans cursor.offset cursor.rest (lexer.nextToken cursor).value.result
      (lexer.nextToken cursor).value.cursor.offset (lexer.nextToken cursor).value.cursor.rest := by
  -- on the input that is left: a lexeme that is skipped leaves less
  induction count : cursor.rest.length using Nat.strongRecOn generalizing cursor with
  | _ length ih =>
    obtain ⟨patterns, compiled, agree⟩ := h.agree
    obtain ⟨munches, decides⟩ := LexerRules.munches_munch compiled agree cursor.rest
    have inside : cursor.offset < UInt32.size := by omega
    rw [nextToken]
    split
    · rename_i taken
      rw [taken] at munches
      split
      · rename_i empty
        change rules.Scans cursor.offset cursor.rest (.endOfInput ⟨lexer.endTerminal, "", .emptyAt cursor.offset,
          lexer.endValue⟩) cursor.offset cursor.rest
        rw [List.isEmpty_iff.mp empty]
        exact .endOfInput h.endOfInput (toNat_offsetOf inside) (toNat_offsetOf inside)
      · rename_i more
        exact scans_failure rfl rfl inside munches (mt List.isEmpty_iff.mpr more) (.inl rfl)
    · rename_i c cs stop taken
      rw [taken] at munches decides
      have munches : rules.Munches cursor.rest (c :: cs) := munches
      have decides : rules.Decides (c :: cs) (Matcher.verdict lexer.matcher stop) := decides
      obtain ⟨back, whole⟩ := munches.front
      have rest : (cursor.advance (cs.length + 1)).rest = back :=
        Cursor.rest_advance_length (c :: cs) whole.symm
      have place : (cursor.advance (cs.length + 1)).offset = cursor.offset + byteCount (c :: cs) :=
        Cursor.offset_advance_length (c :: cs) whole.symm
      rw [← whole, byteCount_append] at short
      have less : back.length < length := by
        rw [← count, ← whole, List.length_append, List.length_cons]
        omega
      have next := ih back.length less (cursor.advance (cs.length + 1)) (by rw [rest, place]; omega) (by rw [rest])
      generalize cursor.advance (cs.length + 1) = after at rest place next
      subst rest
      have short : after.offset < UInt32.size := by omega
      have read := List.cons_ne_nil c cs
      dsimp only
      split
      · rename_i verdict
        rw [verdict] at decides
        have more : cursor.rest ≠ [] := whole ▸ List.append_ne_nil_of_left_ne_nil read after.rest
        exact scans_failure whole place short munches more (.inr decides)
      · rename_i verdict
        rw [verdict] at decides
        rw [← whole] at munches ⊢
        exact .skip read munches decides.1 decides.2 (place ▸ next)
      · rename_i index verdict
        rw [verdict] at decides
        obtain ⟨kind, known, scans⟩ := h.exists_scans_token whole place short munches read decides
        rw [known]
        exact scans

/-- **The scans come to what the rules say**, if there may be more of them than characters. -/
theorem tokenizes_scansFrom (calls : Nat) (cursor : Cursor)
    (short : cursor.offset + byteCount cursor.rest < UInt32.size) (enough : cursor.rest.length < calls) :
    rules.Tokenizes cursor.offset cursor.rest
      ((lexer.scansFrom calls cursor).mapM fun scan => scan.value.result.toExcept) := by
  induction calls generalizing cursor with
  | zero => omega
  | succ calls ih =>
    have scans := h.scans_nextToken cursor short
    rw [scansFrom]
    cases result : (lexer.nextToken cursor).value.result with
    | token token =>
      rw [result] at scans
      have total := scans.offset_add
      have less := scans.length_lt
      have onward := ih (lexer.nextToken cursor).value.cursor (by omega) (by omega)
      simp only
      rw [List.mapM_cons, result]
      generalize (lexer.scansFrom calls (lexer.nextToken cursor).value.cursor).mapM
        (fun scan => scan.value.result.toExcept) = others at onward ⊢
      have next := LexerRules.Tokenizes.next scans onward
      cases others with
      | error _ | ok _ => exact next
    | endOfInput token =>
      rw [result] at scans
      simp only
      rw [List.mapM_cons, result]
      exact .finished scans
    | failure error =>
      rw [result] at scans
      simp only
      rw [List.mapM_cons, result]
      exact .failed scans

end IsOf
end Lexer

/-! ## Lexers of some rules -/

namespace LexerRules

variable {rules : LexerRules α}

/-- What a lexer does in accordance with some rules. -/
structure Governs (rules : LexerRules α) {ε σ : Type} [Matcher ε σ] (lexer : Lexer α ε) : Prop where
  /-- From every place of an input a scan comes to what the rules say. -/
  nextToken : ∀ (text : String) (front back : List Char), text.toList = front ++ back →
    byteCount text.toList < UInt32.size →
    let scan := (lexer.nextToken ((Cursor.ofText text).advance front.length)).value
    rules.Scans (byteCount front) back scan.result scan.cursor.offset scan.cursor.rest
  /-- And so do all scans of an input from its beginning. -/
  tokenize : ∀ text : String, byteCount text.toList < UInt32.size →
    rules.Tokenizes 0 text.toList (lexer.tokenize text).value

theorem governs_of_isOf {ε σ : Type} [Matcher ε σ] {lexer : Lexer α ε} (h : lexer.IsOf rules) :
    rules.Governs lexer where
  nextToken text front back whole short := by
    have start : (Cursor.ofText text).rest = front ++ back := whole
    have rest := Cursor.rest_advance_length front start
    have offset : ((Cursor.ofText text).advance front.length).offset = byteCount front :=
      (Cursor.offset_advance_length front start).trans (Nat.zero_add _)
    have scans := h.scans_nextToken ((Cursor.ofText text).advance front.length)
    rw [rest, offset, ← byteCount_append, ← whole] at scans
    exact scans short
  tokenize text short := by
    have start : (Cursor.ofText text).rest = text.toList := rfl
    have scans := h.tokenizes_scansFrom (text.length + 1) (Cursor.ofText text)
    rw [start, ← String.length_toList] at scans
    exact scans (by simpa [Cursor.ofText] using short) (Nat.lt_succ_self _)

/-- Rules whose patterns are well formed have a lexer. -/
theorem exists_isOf {ε σ : Type} [Matcher ε σ] {terminal : Nat} {value : α}
    (agree : ∀ patterns options, PatternList.IsBuilt patterns →
      Matcher.Agree (RankedNfa.ofPatterns patterns) (Matcher.ofPatterns patterns options : Logged ε).value)
    (declared : rules.endOfInput = some (terminal, value))
    (compiles : ∀ rule ∈ rules.rules, ∃ nfa, Nfa.ofPattern rule.pattern = .ok nfa) :
    ∃ lexer : Lexer α ε, rules.compile.run.value = .ok lexer ∧ lexer.IsOf rules := by
  obtain ⟨patterns, hpatterns⟩ : ∃ patterns, rules.patterns = .ok patterns := by
    refine Except.exists_mapM_eq_ok fun numbered hmem => ?_
    obtain ⟨rule, index⟩ := numbered
    obtain ⟨nfa, built⟩ := compiles rule (List.fst_mem_of_mem_zipIdx hmem)
    refine ⟨(nfa, if rule.token.isSome then .token index else .ignore), ?_⟩
    change compileRule index rule = _
    rw [compileRule, built]
  refine ⟨⟨(Matcher.ofPatterns patterns rules.options : Logged ε).value, (rules.rules.map (·.token)).toArray, terminal,
    value⟩, ?_, ⟨patterns, hpatterns, agree patterns rules.options (isBuilt_patterns hpatterns)⟩, rfl, declared⟩
  rw [compile, declared]
  refine Logged.bind_eq_ok_iff.mpr ⟨patterns, hpatterns, ?_⟩
  exact Logged.bind_eq_ok_iff.mpr ⟨_, rfl, Logged.bind_eq_ok_iff.mpr ⟨(), rfl, rfl⟩⟩

/-- **Tokenization takes the longest viable front, and of the rules that accept it the first**: rules whose patterns are
well formed have a lexer for each matcher, and it scans and tokenizes as the rules say. -/
theorem compile_governs {terminal : Nat} {value : α} (declared : rules.endOfInput = some (terminal, value))
    (compiles : ∀ rule ∈ rules.rules, ∃ nfa, Nfa.ofPattern rule.pattern = .ok nfa) :
    (∃ lexer : Lexer α TransitionTable, rules.compile.run.value = .ok lexer ∧ rules.Governs lexer) ∧
      (∃ lexer : Lexer α Dfa, rules.compile.run.value = .ok lexer ∧ rules.Governs lexer) ∧
      ∃ lexer : Lexer α RankedNfa, rules.compile.run.value = .ok lexer ∧ rules.Governs lexer := by
  refine ⟨?_, ?_, ?_⟩
  · obtain ⟨lexer, compiled, made⟩ :=
      exists_isOf (fun _ options built => agree_ofPatterns built options) declared compiles
    exact ⟨lexer, compiled, governs_of_isOf made⟩
  · obtain ⟨lexer, compiled, made⟩ :=
      exists_isOf (fun _ options built => (agree_dfaOfPatterns built options).2) declared compiles
    exact ⟨lexer, compiled, governs_of_isOf made⟩
  · obtain ⟨lexer, compiled, made⟩ :=
      exists_isOf (fun patterns _ _ => Matcher.Agree.refl (RankedNfa.ofPatterns patterns)) declared compiles
    exact ⟨lexer, compiled, governs_of_isOf made⟩

end LexerRules

/-- A word, names, which the word looks like, and blanks to be ignored. -/
def words : LexerRules Unit :=
  (((({ endOfInput := some (0, ()) } : LexerRules Unit).literal 1 "if" fun _ => ()).token 2 "[a-z]+" fun _ => ()).ignore
    " +")

namespace words

section Rules
variable {class? : Option (TokenClass α)} {text : List Char}

theorem accepts_word : LexerRule.Accepts ⟨escapeLiteral "if", class?⟩ text ↔ text = ['i', 'f'] := by
  rw [LexerRule.accepts_escapeLiteral_iff]
  exact ⟨And.left, fun same => ⟨same, same ▸ List.cons_ne_nil _ _⟩⟩

theorem accepts_name : LexerRule.Accepts ⟨"[a-z]+", class?⟩ text ↔ text ≠ [] ∧ text.all letters.contains = true :=
  LexerRule.accepts_plus_iff ofPattern_letters

theorem accepts_blanks :
    LexerRule.Accepts ⟨" +", class?⟩ text ↔ text ≠ [] ∧ text.all (CharSet.single ' ').contains = true :=
  LexerRule.accepts_plus_iff ofPattern_blanks

theorem mem_rules {rule : LexerRule Unit} : rule ∈ words.rules ↔ rule = ⟨escapeLiteral "if", some ⟨1, fun _ => ()⟩⟩ ∨
    rule = ⟨"[a-z]+", some ⟨2, fun _ => ()⟩⟩ ∨ rule = ⟨" +", none⟩ := by
  have rules : words.rules = [⟨escapeLiteral "if", some ⟨1, fun _ => ()⟩⟩, ⟨"[a-z]+", some ⟨2, fun _ => ()⟩⟩,
    ⟨" +", none⟩] := rfl
  rw [rules, List.mem_cons, List.mem_cons, List.mem_singleton]

/-- What can be read in one go is made of letters or of blanks. -/
theorem letters_or_blanks (viable : words.Viable text) :
    text.all letters.contains = true ∨ text.all (CharSet.single ' ').contains = true := by
  obtain ⟨rule, hrule, rest, accepts⟩ := viable
  have front {set : CharSet} (made : (text ++ rest).all set.contains = true) : text.all set.contains = true := by
    rw [List.all_append, Bool.and_eq_true] at made
    exact made.1
  rcases mem_rules.mp hrule with rfl | rfl | rfl
  · exact .inl (front (accepts_word.mp accepts ▸ by decide))
  · exact .inl (front (accepts_name.mp accepts).2)
  · exact .inr (front (accepts_blanks.mp accepts).2)

end Rules

theorem compiles : ∀ rule ∈ words.rules, ∃ nfa, Nfa.ofPattern rule.pattern = .ok nfa := by
  intro rule hrule
  obtain ⟨text, nfa, built, -⟩ : ∃ text, rule.Accepts text := by
    rcases mem_rules.mp hrule with rfl | rfl | rfl
    · exact ⟨['i', 'f'], accepts_word.mpr rfl⟩
    · exact ⟨['i'], accepts_name.mpr (by decide)⟩
    · exact ⟨[' '], accepts_blanks.mpr (by decide)⟩
  exact ⟨nfa, built⟩

/-- Behind the word there is a blank, and that ends it. -/
theorem scans_word : words.Scans 0 "if iffy".toList (.token ⟨1, "if", ⟨0, 2⟩, ()⟩) 2 " iffy".toList := by
  have accepts : LexerRule.Accepts ⟨escapeLiteral "if", some ⟨1, fun _ => ()⟩⟩ ['i', 'f'] := accepts_word.mpr rfl
  have munches : words.Munches (['i', 'f'] ++ " iffy".toList) ['i', 'f'] := by
    refine LexerRules.munches_of_accepts (mem_rules.mpr (.inl rfl)) accepts fun c hc viable => ?_
    cases hc
    exact absurd (letters_or_blanks viable) (by decide)
  exact .token (List.cons_ne_nil _ _) munches (rfl : words.rules[0]? = some _) rfl accepts nofun rfl rfl

/-- The blank is left out, and the name behind it is not cut off where the word would end. -/
theorem scans_name : words.Scans 2 " iffy".toList (.token ⟨2, "iffy", ⟨3, 7⟩, ()⟩) 7 [] := by
  have name : words.Scans 3 (['i', 'f', 'f', 'y'] ++ []) (.token ⟨2, "iffy", ⟨3, 7⟩, ()⟩) 7 [] := by
    have accepts : LexerRule.Accepts ⟨"[a-z]+", some ⟨2, fun _ => ()⟩⟩ ['i', 'f', 'f', 'y'] :=
      accepts_name.mpr (by decide)
    refine .token (List.cons_ne_nil _ _)
      (LexerRules.munches_of_accepts (mem_rules.mpr (.inr (.inl rfl))) accepts fun _ hc => by cases hc)
      (rfl : words.rules[1]? = some _) rfl accepts (fun j before earlier there accepts => ?_) rfl rfl
    obtain rfl := Nat.lt_one_iff.mp before
    cases there
    exact absurd (accepts_word.mp accepts) (by decide)
  have accepts : (⟨" +", none⟩ : LexerRule Unit).Accepts [' '] := accepts_blanks.mpr (by decide)
  have blanks := mem_rules.mpr (.inr (.inr rfl))
  have munches : words.Munches ([' '] ++ ['i', 'f', 'f', 'y']) [' '] := by
    refine LexerRules.munches_of_accepts blanks accepts fun c hc viable => ?_
    cases hc
    exact absurd (letters_or_blanks viable) (by decide)
  refine .skip (List.cons_ne_nil _ _) munches ⟨_, blanks, accepts⟩ (fun rule hrule accepts => ?_) name
  rcases mem_rules.mp hrule with rfl | rfl | rfl
  · exact absurd (accepts_word.mp accepts) (by decide)
  · exact absurd (accepts_name.mp accepts) (by decide)
  · rfl

end words

/-- The word is a token of its own, and of the name that begins with it nothing is cut off. -/
theorem compile_governs_words : ∃ lexer : Lexer Unit TransitionTable, words.compile.run.value = .ok lexer ∧
    words.Governs lexer ∧ (lexer.tokenize "if iffy").value =
      .ok [⟨1, "if", ⟨0, 2⟩, ()⟩, ⟨2, "iffy", ⟨3, 7⟩, ()⟩, ⟨0, "", ⟨7, 7⟩, ()⟩] := by
  obtain ⟨lexer, compiled, governs⟩ := (LexerRules.compile_governs rfl words.compiles).1
  have tokens : words.Tokenizes 0 "if iffy".toList (.ok [⟨1, "if", ⟨0, 2⟩, ()⟩, ⟨2, "iffy", ⟨3, 7⟩, ()⟩,
      ⟨0, "", ⟨7, 7⟩, ()⟩]) :=
    .next words.scans_word (.next words.scans_name (.finished (.endOfInput rfl rfl rfl)))
  exact ⟨lexer, compiled, governs, tokens.unique (governs.tokenize "if iffy" (by decide))⟩

end TableParsing
