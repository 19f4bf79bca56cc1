import TableParsing.Proofs.Dfa.Minimal
import TableParsing.Proofs.Dfa.Subset
import TableParsing.Proofs.Lexer.Literal
import TableParsing.Proofs.Nfa.Ranked
import TableParsing.Proofs.Table.Transition

/-! # The matchers of some patterns

The matchers are made one from another by stages, and each stage makes a matcher that agrees with what it was made from:
the subset construction, minimisation, and the transition table, packed or not.  **So all matchers of some patterns take
the same characters with the same verdicts**, whatever the options are (`verdictsOf_ofPatterns`). -/

namespace TableParsing

open Matcher

variable {patterns : PatternList} {options options' : LexerOptions}

/-! ## Stages -/

theorem value_dfaOfPatterns (patterns : PatternList) (options : LexerOptions) :
    (dfaOfPatterns patterns options).value =
      if options.minimize then (RankedNfa.ofPatterns patterns).toDfa.minimize
      else (RankedNfa.ofPatterns patterns).toDfa := by
  change (if options.minimize then minimizeDfa _ else (pure _ : Logged Dfa)).value = _
  split <;> rfl

/-- The deterministic automaton, minimal or not, is well formed and agrees with the one it is made from. -/
theorem agree_dfaOfPatterns (h : patterns.IsBuilt) (options : LexerOptions) :
    (dfaOfPatterns patterns options).value.WellFormed ∧
      Agree (RankedNfa.ofPatterns patterns) (dfaOfPatterns patterns options).value := by
  have merged := RankedNfa.isMerged_ofPatterns h
  have wellFormed := RankedNfa.wellFormed_toDfa merged.closed.toStaysInside merged.labelled.hasWellFormedLabels
  have agree := RankedNfa.agree_toDfa merged.closed.toStaysInside merged.labelled.hasWellFormedLabels
  rw [value_dfaOfPatterns]
  split
  · exact ⟨wellFormed.minimize, agree.trans wellFormed.agree_minimize⟩
  · exact ⟨wellFormed, agree⟩

/-- The transition table of some patterns. -/
theorem agree_ofPatterns (h : patterns.IsBuilt) (options : LexerOptions) :
    Agree (RankedNfa.ofPatterns patterns) (Matcher.ofPatterns patterns options : Logged TransitionTable).value := by
  obtain ⟨wellFormed, agree⟩ := agree_dfaOfPatterns h options
  exact agree.trans (TransitionTable.agree_ofDfa wellFormed options.compress)

/-! ## Verdicts along a text -/

namespace RankedNfa

/-- A simulation that is never stuck has a verdict behind every front of a text. -/
theorem verdicts_run (ranked : RankedNfa) (before : List Char) {text : List Char}
    (onward : ∀ front, front <+: text → front ≠ [] → ranked.nfa.run (before ++ front) ≠ []) :
    verdicts ranked (ranked.nfa.run before) text =
      text.inits.map fun front => ranked.verdict (ranked.nfa.run (before ++ front)) := by
  induction text generalizing before with
  | nil =>
    change [ranked.verdict (ranked.nfa.run before)] = [ranked.verdict (ranked.nfa.run (before ++ []))]
    rw [List.append_nil]
  | cons c text ih =>
    have step : ranked.nfa.step (ranked.nfa.run before) c = ranked.nfa.run (before ++ [c]) := Nfa.run_append.symm
    have first : [c] <+: c :: text := List.cons_prefix_cons.mpr ⟨rfl, List.nil_prefix⟩
    have some : (ranked.nfa.run (before ++ [c])).isEmpty = false :=
      List.isEmpty_eq_false_iff.mpr (onward [c] first (List.cons_ne_nil _ _))
    have next : next ranked (ranked.nfa.run before) c = .some (ranked.nfa.run (before ++ [c])) := by
      change (if (ranked.nfa.step _ c).isEmpty then none else _) = _
      rw [step, some]
      rfl
    have rest := ih (before ++ [c]) fun front hfront ne => by
      rw [List.append_assoc]
      exact onward (c :: front) (List.cons_prefix_cons.mpr ⟨rfl, hfront⟩) (List.cons_ne_nil _ _)
    rw [verdicts, next, List.inits_cons, List.map_cons, List.map_map, List.append_nil]
    simp only [rest, List.append_assoc]
    rfl

/-- So it is along a text that a pattern accepts, or the front of one. -/
theorem verdictsOf_eq (h : patterns.IsBuilt) {text : List Char} (rest : List Char) {p : Nfa × Verdict}
    (hp : p ∈ patterns) (accepts : p.1.accepts? (text ++ rest) = true) : verdictsOf (ofPatterns patterns) text =
      text.inits.map fun front => (ofPatterns patterns).verdict ((ofPatterns patterns).nfa.run front) := by
  refine verdicts_run (ofPatterns patterns) [] fun front hfront ne => ?_
  obtain ⟨back, rfl⟩ := hfront
  rw [List.append_assoc] at accepts
  obtain ⟨s, hs⟩ := (exists_mem_run_iff h ne).mpr ⟨p, hp, _, accepts⟩
  exact List.ne_nil_of_mem hs

end RankedNfa

/-! ## A word, names and blanks -/

namespace words

/-- The lower-case letters. -/
def letters : CharSet := ⟨[⟨'a', 'z', by decide⟩]⟩

theorem ofPattern_letters : PatternOp.ofPattern "[a-z]+" = .ok [.accept letters, .plus] := by
  have read : readTokens "[a-z]+".toList = .ok [(.operation (.accept letters), "[a-z]+".toList),
    (.operation .plus, "+".toList)] := by cbv
  rw [ofPattern_eq read]
  rfl

theorem ofPattern_blanks : PatternOp.ofPattern " +" = .ok [.accept (.single ' '), .plus] := by
  have read : readTokens " +".toList = .ok [(.operation (.accept (.single ' ')), " +".toList),
    (.operation .plus, "+".toList)] := by cbv
  rw [ofPattern_eq read]
  rfl

/-- What the three patterns say together along the word, and along a blank. -/
theorem verdictsOf_ranked {word name blanks : Nfa} {patterns : PatternList}
    (three : patterns = [(word, .token 0), (name, .token 1), (blanks, .ignore)]) (built : patterns.IsBuilt)
    (acceptsWord : ∀ text, word.accepts? text = true ↔ text = "if".toList)
    (acceptsName : ∀ text, name.accepts? text = true ↔ text ≠ [] ∧ text.all letters.contains = true)
    (acceptsBlanks : ∀ text, blanks.accepts? text = true ↔ text ≠ [] ∧ text.all (CharSet.single ' ').contains = true) :
    verdictsOf (RankedNfa.ofPatterns patterns) ['i', 'f'] = [.reject, .token 1, .token 0] ∧
      verdictsOf (RankedNfa.ofPatterns patterns) [' '] = [.reject, .ignore] := by
  subst three
  -- the verdict behind a text is found by looking at the text
  have wordAt (text : List Char) : word.accepts? text = decide (text = "if".toList) :=
    Bool.eq_iff_iff.mpr ((acceptsWord text).trans decide_eq_true_iff.symm)
  have nameAt (text : List Char) : name.accepts? text = decide (text ≠ [] ∧ text.all letters.contains = true) :=
    Bool.eq_iff_iff.mpr ((acceptsName text).trans decide_eq_true_iff.symm)
  have blanksAt (text : List Char) : blanks.accepts? text = decide (text ≠ [] ∧ text.all _ = true) :=
    Bool.eq_iff_iff.mpr ((acceptsBlanks text).trans decide_eq_true_iff.symm)
  constructor
  · rw [RankedNfa.verdictsOf_eq built [] List.mem_cons_self ((acceptsWord _).mpr rfl)]
    simp only [RankedNfa.verdict_run built, List.find?_cons, List.any_cons, wordAt, nameAt, blanksAt]
    rfl
  · rw [RankedNfa.verdictsOf_eq built [] (.tail _ (.tail _ (.head _))) ((acceptsBlanks _).mpr (by decide))]
    simp only [RankedNfa.verdict_run built, List.find?_cons, List.any_cons, wordAt, nameAt, blanksAt]
    rfl

end words

/-! ## Options -/

/-- **All matchers of some patterns say the same along every text**, whatever options they are made with. -/
theorem verdictsOf_ofPatterns (h : patterns.IsBuilt) (options options' : LexerOptions) (text : List Char) :
    let table (options : LexerOptions) := (Matcher.ofPatterns patterns options : Logged TransitionTable).value
    let dfa (options : LexerOptions) := (Matcher.ofPatterns patterns options : Logged Dfa).value
    let nfa (options : LexerOptions) := (Matcher.ofPatterns patterns options : Logged RankedNfa).value
    verdictsOf (table options) text = verdictsOf (table options') text ∧
      verdictsOf (dfa options) text = verdictsOf (dfa options') text ∧
      verdictsOf (table options) text = verdictsOf (dfa options') text ∧
      verdictsOf (table options) text = verdictsOf (nfa options') text ∧
      verdictsOf (dfa options) text = verdictsOf (nfa options') text := by
  have table (options : LexerOptions) := (agree_ofPatterns h options).verdictsOf_eq text
  have dfa (options : LexerOptions) := (agree_dfaOfPatterns h options).2.verdictsOf_eq text
  exact ⟨(table _).symm.trans (table _), (dfa _).symm.trans (dfa _), (table _).symm.trans (dfa _), (table _).symm,
    (dfa _).symm⟩

/-- A word that is no name though it looks like one, and blanks.  The letter i is a name, and behind the letter f it is
the word. -/
theorem verdictsOf_ofPatterns_words : ∃ word name blanks, Nfa.ofPattern "if" = .ok word ∧
    Nfa.ofPattern "[a-z]+" = .ok name ∧ Nfa.ofPattern " +" = .ok blanks ∧ ∀ options : LexerOptions,
      let patterns := [(word, .token 0), (name, .token 1), (blanks, .ignore)]
      let table := (Matcher.ofPatterns patterns options : Logged TransitionTable).value
      let dfa := (Matcher.ofPatterns patterns options : Logged Dfa).value
      verdictsOf table ['i', 'f'] = [.reject, .token 1, .token 0] ∧
        verdictsOf dfa ['i', 'f'] = [.reject, .token 1, .token 0] ∧
        verdictsOf table [' '] = [.reject, .ignore] ∧ verdictsOf dfa [' '] = [.reject, .ignore] := by
  obtain ⟨word, hword, acceptsWord⟩ := Nfa.exists_ofPattern_literal (show "if".toList ≠ [] by decide)
  obtain ⟨name, hname, acceptsName⟩ := Nfa.exists_ofPattern_plus words.ofPattern_letters
  obtain ⟨blanks, hblanks, acceptsBlanks⟩ := Nfa.exists_ofPattern_plus words.ofPattern_blanks
  refine ⟨word, name, blanks, hword, hname, hblanks, fun options => ?_⟩
  intro patterns table dfa
  have built : PatternList.IsBuilt patterns := by
    intro p hp
    rcases List.mem_cons.mp hp with rfl | hp
    · exact ⟨_, hword⟩
    rcases List.mem_cons.mp hp with rfl | hp
    · exact ⟨_, hname⟩
    · exact List.mem_singleton.mp hp ▸ ⟨_, hblanks⟩
  obtain ⟨letters, blank⟩ := words.verdictsOf_ranked rfl built acceptsWord acceptsName acceptsBlanks
  obtain ⟨-, -, -, table_letters, dfa_letters⟩ := verdictsOf_ofPatterns built options options ['i', 'f']
  obtain ⟨-, -, -, table_blank, dfa_blank⟩ := verdictsOf_ofPatterns built options options [' ']
  exact ⟨table_letters.trans letters, dfa_letters.trans letters, table_blank.trans blank, dfa_blank.trans blank⟩

end TableParsing
