import TableParsing.Proofs.CharSet.Basic
import TableParsing.Proofs.Grammar.Terminals
import TableParsing.Proofs.Nfa.Thompson
import TableParsing.Proofs.Pattern.Recognition

/-! # Literal text

In the pattern of a literal text punctuation is marked, so **each character is read as the set that holds it alone**
(`readTokens_escaped`).  The pattern is then a sequence of these sets, and every sequence has an automaton.  That of a
literal text accepts the text and no other (`literal_matches_itself`), and grammars whose tokens have literal texts always
have lexers (`Grammar.IsLiteral.compiles`). -/

namespace TableParsing

open PatternAlgebra

/-! ## Reading -/

/-- The pattern of one character. -/
def escaped (c : Char) : List Char := if isPunctuation c then ['\\', c] else [c]

/-- The token of one character. -/
def charToken (c : Char) : PatternToken := .operation (.accept (.single c))

variable {c : Char}

/-- Punctuation has no other meaning behind a backslash. -/
theorem escapeSet?_of_isPunctuation (h : isPunctuation c = true) : escapeSet? c = some (.single c) := by
  have alphanum : c.isAlphanum = false := by
    simp only [isPunctuation, Bool.and_eq_true, Bool.not_eq_true'] at h
    exact h.2
  rw [escapeSet?.eq_def]
  split
  case h_10 => rw [alphanum, if_neg Bool.false_ne_true]
  all_goals exact absurd alphanum (by decide)

theorem readToken_slash (h : isPunctuation c = true) (rest : List Char) :
    readToken '\\' (c :: rest) = .ok ((Read.one (charToken c) c rest).behind '\\') := by
  have escape : readEscape '\\' (c :: rest) = .ok ((Read.one (.single c) c rest).behind '\\') := by
    rw [readEscape, escapeSet?_of_isPunctuation h]
  rw [readToken.eq_def, if_neg (by decide), if_neg (by decide), if_pos rfl, escape]
  rfl

/-- Only punctuation has a meaning of its own. -/
theorem readToken_plain (h : isPunctuation c = false) (rest : List Char) :
    readToken c rest = .ok (.one (charToken c) c rest) := by
  have ne (other : Char) (punctuation : isPunctuation other = true) : c ≠ other := by
    rintro rfl
    exact Bool.noConfusion (h.symm.trans punctuation)
  rw [readToken.eq_def, if_neg (ne _ (by decide)), if_neg (ne _ (by decide)), if_neg (ne _ (by decide))]
  dsimp only
  split
  case h_8 => rfl
  all_goals exact absurd h (by decide)

theorem readTokens_escaped (c : Char) (rest : List Char) : readTokens (escaped c ++ rest) =
    (do return (charToken c, escaped c ++ rest) :: (← readTokens rest)) := by
  cases h : isPunctuation c with
  | true =>
    have whole : escaped c ++ rest = '\\' :: c :: rest := by rw [escaped, h, if_pos rfl]; rfl
    rw [whole, readTokens, readToken_slash h]
    rfl
  | false =>
    have whole : escaped c ++ rest = c :: rest := by rw [escaped, h, if_neg Bool.false_ne_true]; rfl
    rw [whole, readTokens, readToken_plain h]
    rfl

/-- **A literal text is read character by character.** -/
theorem exists_readTokens (chars : List Char) :
    ∃ tokens, readTokens (chars.flatMap escaped) = .ok tokens ∧ bare tokens = chars.map charToken := by
  induction chars with
  | nil =>
    refine ⟨[], ?_, rfl⟩
    rw [List.flatMap_nil, readTokens]
  | cons c chars ih =>
    obtain ⟨tokens, read, same⟩ := ih
    refine ⟨(charToken c, escaped c ++ chars.flatMap escaped) :: tokens, ?_, congrArg (charToken c :: ·) same⟩
    rw [List.flatMap_cons, readTokens_escaped, read]
    rfl

/-! ## Sequences -/

namespace Phrase

/-- A sequence with some characters behind it. -/
def followedBy : Phrase .sequence → List Char → Phrase .sequence
  | x, [] => x
  | x, c :: chars => followedBy (.followed x (.ofAtom (.accept (.single c)))) chars

/-- The sequence of some characters. -/
def ofChars (c : Char) (chars : List Char) : Phrase .sequence :=
  followedBy (.ofRepetition (.ofAtom (.accept (.single c)))) chars

theorem tokens_followedBy (x : Phrase .sequence) (chars : List Char) :
    (x.followedBy chars).tokens = x.tokens ++ chars.map charToken := by
  induction chars generalizing x with
  | nil => exact (List.append_nil _).symm
  | cons c chars ih => exact (ih _).trans (List.append_assoc ..)

/-- **Every phrase stands for something**: its operations leave one thing on the stack. -/
theorem exists_foldlM {α : Type} (algebra : PatternAlgebra α) {kind : PhraseKind} (x : Phrase kind) (stack : List α) :
    ∃ v, x.ops.foldlM algebra.perform? stack = some (v :: stack) := by
  induction x generalizing stack with
  | accept set => exact ⟨_, rfl⟩
  | group x ih | ofAtom x ih | ofRepetition x ih | ofSequence x ih => exact ih stack
  | repeated x op isPostfix ih =>
    obtain ⟨v, hv⟩ := ih stack
    rw [ops, List.foldlM_append, hv]
    cases op with
    | star | plus | optional | «repeat» => exact ⟨_, rfl⟩
    | accept | concat | alternate => cases isPostfix
  | followed x y ihx ihy | barred x y ihx ihy =>
    obtain ⟨v, hv⟩ := ihx stack
    obtain ⟨w, hw⟩ := ihy (v :: stack)
    rw [ops, List.foldlM_append, List.foldlM_append, hv, Option.bind_eq_bind, Option.bind_some, hw]
    exact ⟨_, rfl⟩

end Phrase

/-! ## Words -/

/-- The operations for a word: the sets of its characters, joined from the left. -/
def PatternOp.ofWord : List Char → List PatternOp
  | [] => []
  | c :: chars => .accept (.single c) :: chars.flatMap fun c => [.accept (.single c), .concat]

namespace Phrase

theorem ops_followedBy (x : Phrase .sequence) (chars : List Char) :
    (x.followedBy chars).ops = x.ops ++ chars.flatMap fun c => [.accept (.single c), .concat] := by
  induction chars generalizing x with
  | nil => exact (List.append_nil _).symm
  | cons c chars ih =>
    rw [followedBy, ih, List.flatMap_cons, ← List.append_assoc]
    exact congrArg (· ++ _) (List.append_assoc ..)

theorem ops_ofChars (c : Char) (chars : List Char) : (ofChars c chars).ops = PatternOp.ofWord (c :: chars) :=
  ops_followedBy _ chars

end Phrase

theorem isCore_of_mem_ofWord {word : List Char} {op : PatternOp} (h : op ∈ PatternOp.ofWord word) : op.IsCore := by
  cases word with
  | nil => cases h
  | cons c chars =>
    rcases List.mem_cons.mp h with rfl | h
    · trivial
    · obtain ⟨d, -, h⟩ := List.mem_flatMap.mp h
      rcases List.mem_pair.mp h with rfl | rfl <;> trivial

theorem CharSet.words_single (c : Char) : (single c).words = {[c]} := by
  ext word
  constructor
  · rintro ⟨d, hd, rfl⟩
    have same : d = c := by simpa [single] using contains_iff.mp hd
    exact congrArg (fun c => [c]) same
  · rintro rfl
    exact ⟨c, contains_iff.mpr (mem_insertChar.mpr (.inl rfl)), rfl⟩

/-- Each further character makes the one word longer. -/
theorem foldlM_perform?_joined (front chars : List Char) :
    (chars.flatMap fun c => [PatternOp.accept (.single c), .concat]).foldlM languages.perform? [{front}] =
      some [{front ++ chars}] := by
  induction chars generalizing front with
  | nil => rw [List.append_nil]; rfl
  | cons c chars ih =>
    have joined : ({front} * (CharSet.single c).words : Language Char) = {front ++ [c]} := by
      rw [CharSet.words_single]
      exact Set.image2_singleton
    rw [List.flatMap_cons, List.append_cons, ← ih, ← joined]
    rfl

theorem languages_eval?_ofWord (c : Char) (chars : List Char) :
    languages.eval? (PatternOp.ofWord (c :: chars)) = some {c :: chars} := by
  rw [eval?_eq_some_iff]
  change (chars.flatMap fun c => [PatternOp.accept (.single c), .concat]).foldlM languages.perform?
    [(CharSet.single c).words] = _
  rw [CharSet.words_single, foldlM_perform?_joined]
  rfl

/-- **A literal text is a pattern**, unless it is empty: that of the sequence of its characters. -/
theorem ofPattern_escapeLiteral {text : String} (some : text.toList ≠ []) :
    PatternOp.ofPattern (escapeLiteral text) = .ok (PatternOp.ofWord text.toList) := by
  obtain ⟨c, chars, h⟩ := List.exists_cons_of_ne_nil some
  obtain ⟨tokens, read, same⟩ := exists_readTokens text.toList
  have spelled : (Phrase.ofChars c chars).ofSequence.tokens = bare tokens := by
    rw [same, h]
    exact Phrase.tokens_followedBy _ chars
  have whole : readTokens (escapeLiteral text).toList = .ok tokens := by
    rw [escapeLiteral, String.toList_ofList]
    exact read
  rw [ofPattern_eq whole, Phrase.operationsOf_eq _ _ spelled.symm, h, ← Phrase.ops_ofChars]
  rfl

/-- Its automaton accepts the text and no other. -/
theorem Nfa.exists_ofPattern_literal {text : String} (some : text.toList ≠ []) :
    ∃ nfa, Nfa.ofPattern (escapeLiteral text) = .ok nfa ∧ ∀ word, nfa.accepts? word = true ↔ word = text.toList := by
  have ops := ofPattern_escapeLiteral some
  obtain ⟨c, chars, h⟩ := List.exists_cons_of_ne_nil some
  rw [h] at ops ⊢
  obtain ⟨p, hp⟩ := (Phrase.ofChars c chars).exists_foldlM passages []
  rw [Phrase.ops_ofChars] at hp
  obtain ⟨nfa, made, -⟩ := Nfa.exists_of_passage ((eval?_eq_some_iff _).mpr hp)
  obtain ⟨L, hL, accepts⟩ := Nfa.accepts_iff_of_core (fun op => isCore_of_mem_ofWord) made
  rw [languages_eval?_ofWord] at hL
  cases hL
  exact ⟨nfa, Except.bind_eq_ok_iff.mpr ⟨_, ops, by rw [made]; rfl⟩, accepts⟩

/-- **A literal text matches itself and nothing else**: its pattern joins the sets of its characters, and the automaton
of the pattern accepts no other text. -/
theorem literal_matches_itself {text : String} (nonempty : text ≠ "") :
    PatternOp.ofPattern (escapeLiteral text) = .ok (PatternOp.ofWord text.toList) ∧
      ∃ nfa, Nfa.ofPattern (escapeLiteral text) = .ok nfa ∧
        ∀ input : String, nfa.accepts? input.toList = true ↔ input = text := by
  have some : text.toList ≠ [] := mt String.toList_eq_nil_iff.mp nonempty
  obtain ⟨nfa, made, accepts⟩ := Nfa.exists_ofPattern_literal some
  exact ⟨ofPattern_escapeLiteral some, nfa, made, fun input => (accepts input.toList).trans String.toList_inj⟩

/-- A bracket and a hyphen are themselves, and not the end of a class. -/
theorem literal_matches_itself_signs : "é-]" ≠ "" ∧
    PatternOp.ofPattern (escapeLiteral "é-]") =
      .ok [.accept (.single 'é'), .accept (.single '-'), .concat, .accept (.single ']'), .concat] ∧
    ∃ nfa, Nfa.ofPattern (escapeLiteral "é-]") = .ok nfa ∧
      nfa.accepts? "é-]".toList = true ∧ nfa.accepts? "é]".toList = false := by
  obtain ⟨ops, nfa, made, accepts⟩ := literal_matches_itself (show "é-]" ≠ "" by decide)
  exact ⟨by decide, ops, nfa, made, (accepts "é-]").mpr rfl,
    Bool.eq_false_iff.mpr fun h => absurd ((accepts "é]").mp h) (by decide)⟩

/-! ## Grammars -/

section Grammars
variable {α : Type}

/-- Whether the tokens of a terminal are made by the parser, or all have one text. -/
def TerminalKind.IsLiteral : TerminalKind α → Prop
  | .reserved => True
  | .literal text => text.toList ≠ []
  | .pattern _ _ => False

instance : DecidablePred (TerminalKind.IsLiteral (α := α))
  | .reserved => inferInstanceAs (Decidable True)
  | .literal text => inferInstanceAs (Decidable (text.toList ≠ []))
  | .pattern _ _ => inferInstanceAs (Decidable False)

/-- Whether all tokens of a grammar are so, and nothing is ignored. -/
structure Grammar.IsLiteral (grammar : Grammar α) : Prop where
  ignored : grammar.ignored = []
  terminals : ∀ terminal ∈ grammar.terminals, terminal.kind.IsLiteral

theorem Grammar.IsLiteral.kind {grammar : Grammar α} (h : grammar.IsLiteral) {t : Nat} {kind : TerminalKind α}
    (there : (kindsOf grammar.terminals)[t]? = some kind) : kind.IsLiteral := by
  obtain ⟨terminal, declared, rfl⟩ := getElem?_kindsOf.mp there
  exact h.terminals terminal (List.fst_mem_of_mem_zipIdx declared)

/-- **The patterns of such a grammar are all well formed.** -/
theorem Grammar.IsLiteral.compiles [Inhabited α] {grammar : Grammar α} (h : grammar.IsLiteral) :
    ∀ rule ∈ grammar.lexerRules.rules, ∃ nfa, Nfa.ofPattern rule.pattern = .ok nfa := by
  intro rule hrule
  rw [lexerRules, h.ignored, List.map_nil, List.append_nil] at hrule
  rcases List.mem_append.mp hrule with hrule | hrule
  · obtain ⟨text, t, there, rfl⟩ := mem_literalRules.mp hrule
    obtain ⟨nfa, made, -⟩ := Nfa.exists_ofPattern_literal (h.kind there)
    exact ⟨nfa, made⟩
  · obtain ⟨regex, value, t, there, -⟩ := mem_patternRules.mp hrule
    exact (h.kind there).elim

end Grammars
end TableParsing
