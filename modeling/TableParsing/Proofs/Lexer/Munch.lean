import TableParsing.Lexer.Rules
import TableParsing.Proofs.Except
import TableParsing.Proofs.Lexer.Literal
import TableParsing.Proofs.Lexer.Matcher
import TableParsing.Proofs.Nfa.Ranked

/-! # The longest front

A rule **accepts** the texts that the automaton of its own pattern accepts, and a text is **viable** if it is the front
of one that some rule accepts.  A matcher of the rules takes the longest viable front of an input
(`LexerRules.munches_munch`), and the verdict behind it says which rules accept what was taken
(`LexerRules.decides_verdict`). -/

namespace TableParsing

variable {α : Type}

/-- Whether the rule's own automaton accepts the text. -/
def LexerRule.Accepts (rule : LexerRule α) (text : List Char) : Prop :=
  ∃ nfa, Nfa.ofPattern rule.pattern = .ok nfa ∧ nfa.accepts? text = true

namespace LexerRule
variable {class? : Option (TokenClass α)}

/-- The rule of a text accepts that text and no other. -/
theorem accepts_escapeLiteral_iff {text : String} {word : List Char} :
    Accepts ⟨escapeLiteral text, class?⟩ word ↔ word = text.toList ∧ word ≠ [] := by
  by_cases some : text.toList = []
  · have refused : ∃ e, Nfa.ofPattern (escapeLiteral text) = .error e := by
      rw [String.toList_eq_nil_iff.mp some]
      exact ⟨_, rfl⟩
    obtain ⟨e, refused⟩ := refused
    constructor
    · rintro ⟨nfa, made, -⟩
      cases refused.symm.trans made
    · rintro ⟨rfl, ne⟩
      exact absurd some ne
  · obtain ⟨nfa, made, accepts⟩ := Nfa.exists_ofPattern_literal some
    constructor
    · rintro ⟨nfa', made', accepted⟩
      cases made.symm.trans made'
      obtain rfl := (accepts word).mp accepted
      exact ⟨rfl, some⟩
    · rintro ⟨same, -⟩
      exact ⟨nfa, made, (accepts word).mpr same⟩

/-- The rule of a repeated set accepts the texts that are made of its characters, but for the empty one. -/
theorem accepts_plus_iff {pattern : String} {set : CharSet} {word : List Char}
    (hops : PatternOp.ofPattern pattern = .ok [.accept set, .plus]) :
    Accepts ⟨pattern, class?⟩ word ↔ word ≠ [] ∧ word.all set.contains = true := by
  obtain ⟨nfa, built, accepts⟩ := Nfa.exists_ofPattern_plus hops
  constructor
  · rintro ⟨nfa', built', accepted⟩
    cases built.symm.trans built'
    exact (accepts word).mp accepted
  · intro made
    exact ⟨nfa, built, (accepts word).mpr made⟩

end LexerRule

namespace LexerRules

/-- Whether the text is the front of one that some rule accepts. -/
def Viable (rules : LexerRules α) (text : List Char) : Prop :=
  ∃ rule ∈ rules.rules, ∃ rest, rule.Accepts (text ++ rest)

/-- Whether a lexeme is the longest viable front of the input, or nothing if no character can be read. -/
structure Munches (rules : LexerRules α) (input lexeme : List Char) : Prop where
  front : lexeme <+: input
  viable : lexeme ≠ [] → rules.Viable lexeme
  longest : ∀ other, other <+: input → other ≠ [] → rules.Viable other → other.length ≤ lexeme.length

/-- What a verdict says about the rules that accept a text. -/
def Decides (rules : LexerRules α) (text : List Char) : Verdict → Prop
  | .reject => ∀ rule ∈ rules.rules, ¬rule.Accepts text
  | .ignore => (∃ rule ∈ rules.rules, rule.Accepts text) ∧ ∀ rule ∈ rules.rules, rule.Accepts text → rule.token = none
  | .token index => ∃ rule kind, rules.rules[index]? = some rule ∧ rule.token = some kind ∧ rule.Accepts text ∧
      ∀ j < index, ∀ earlier, rules.rules[j]? = some earlier → earlier.Accepts text → earlier.token = none

variable {rules : LexerRules α} {patterns : PatternList} {text lexeme input : List Char}

theorem Viable.of_append {rest : List Char} (h : rules.Viable (text ++ rest)) : rules.Viable text := by
  obtain ⟨rule, hrule, rest', accepts⟩ := h
  exact ⟨rule, hrule, rest ++ rest', List.append_assoc text rest rest' ▸ accepts⟩

/-- What cannot go on is longest. -/
theorem munches_of_stuck (front : lexeme <+: input) (viable : lexeme ≠ [] → rules.Viable lexeme)
    (stuck : ∀ c, lexeme ++ [c] <+: input → ¬rules.Viable (lexeme ++ [c])) : rules.Munches input lexeme := by
  refine ⟨front, viable, fun other hother ne viable' => ?_⟩
  by_contra longer
  obtain ⟨back, rfl⟩ := List.prefix_of_prefix_length_le front hother (by omega)
  cases back with
  | nil => simp at longer
  | cons c back =>
    rw [List.append_cons] at hother viable'
    exact stuck c ((List.prefix_append _ _).trans hother) viable'.of_append

/-- Behind a lexeme that a rule accepts the input goes on with a character that makes it not viable. -/
theorem munches_of_accepts {rest : List Char} {rule : LexerRule α} (hrule : rule ∈ rules.rules)
    (accepts : rule.Accepts lexeme) (boundary : ∀ c ∈ rest.head?, ¬rules.Viable (lexeme ++ [c])) :
    rules.Munches (lexeme ++ rest) lexeme := by
  refine munches_of_stuck (List.prefix_append lexeme rest) (fun _ => ⟨rule, hrule, [], ?_⟩) fun c longer => ?_
  · rwa [List.append_nil]
  · obtain ⟨back, rfl⟩ := (List.prefix_append_right_inj lexeme).mp longer
    exact boundary c rfl

/-- An input has one longest front. -/
theorem Munches.unique {other : List Char} (h : rules.Munches input lexeme) (h' : rules.Munches input other) :
    lexeme = other := by
  have le {lexeme other : List Char} (h : rules.Munches input lexeme) (h' : rules.Munches input other) :
      lexeme.length ≤ other.length := by
    by_cases some : lexeme = []
    · rw [some]
      exact Nat.zero_le _
    · exact h'.longest lexeme h.front some (h.viable some)
  exact (List.prefix_of_prefix_length_le h.front h'.front (le h h')).eq_of_length (Nat.le_antisymm (le h h') (le h' h))

/-- So two ways to take it off an input are one. -/
theorem Munches.eq_of_append_eq {rest lexeme' rest' : List Char} (h : rules.Munches (lexeme ++ rest) lexeme)
    (h' : rules.Munches (lexeme' ++ rest') lexeme') (same : lexeme ++ rest = lexeme' ++ rest') :
    lexeme = lexeme' ∧ rest = rest' := by
  obtain rfl := h.unique (same ▸ h')
  exact ⟨rfl, List.append_cancel_left same⟩

/-! ## The patterns of the rules -/

section Patterns
variable (h : rules.patterns = .ok patterns)
include h

/-- The pattern of each rule. -/
theorem getElem?_patterns {index : Nat} {rule : LexerRule α} (hrule : rules.rules[index]? = some rule) :
    ∃ nfa, Nfa.ofPattern rule.pattern = .ok nfa ∧
      patterns[index]? = some (nfa, if rule.token.isSome then .token index else .ignore) := by
  have numbered : rules.rules.zipIdx[index]? = some (rule, index) := by
    rw [List.getElem?_zipIdx, hrule, Nat.zero_add]
    rfl
  obtain ⟨p, hp, compiled⟩ := Except.getElem?_of_mapM_eq_ok h numbered
  change compileRule index rule = .ok p at compiled
  rw [compileRule] at compiled
  split at compiled
  · cases compiled
  · rename_i nfa built
    cases compiled
    exact ⟨nfa, built, hp⟩

theorem exists_rule {index : Nat} {p : Nfa × Verdict} (hp : patterns[index]? = some p) : ∃ rule,
    rules.rules[index]? = some rule ∧ Nfa.ofPattern rule.pattern = .ok p.1 ∧
      p.2 = if rule.token.isSome then .token index else .ignore := by
  have length := Except.length_of_mapM_eq_ok h
  rw [List.length_zipIdx] at length
  have lt : index < rules.rules.length := length ▸ (List.getElem?_eq_some_iff.mp hp).1
  have hrule := List.getElem?_eq_getElem lt
  obtain ⟨nfa, built, there⟩ := getElem?_patterns h hrule
  rw [there] at hp
  cases hp
  exact ⟨_, hrule, built, rfl⟩

theorem isBuilt_patterns : patterns.IsBuilt := by
  intro p hp
  obtain ⟨index, hindex⟩ := List.mem_iff_getElem?.mp hp
  obtain ⟨rule, -, built, -⟩ := exists_rule h hindex
  exact ⟨rule.pattern, built⟩

/-- Some pattern accepts if and only if some rule does. -/
theorem exists_accepts_iff (text : List Char) :
    (∃ p ∈ patterns, p.1.accepts? text = true) ↔ ∃ rule ∈ rules.rules, rule.Accepts text := by
  constructor
  · rintro ⟨p, hp, accepts⟩
    obtain ⟨index, hindex⟩ := List.mem_iff_getElem?.mp hp
    obtain ⟨rule, hrule, built, -⟩ := exists_rule h hindex
    exact ⟨rule, List.mem_of_getElem? hrule, p.1, built, accepts⟩
  · rintro ⟨rule, hrule, nfa, built, accepts⟩
    obtain ⟨index, hindex⟩ := List.mem_iff_getElem?.mp hrule
    obtain ⟨nfa', built', there⟩ := getElem?_patterns h hindex
    rw [built] at built'
    cases built'
    exact ⟨_, List.mem_of_getElem? there, accepts⟩

theorem viable_iff : rules.Viable text ↔ ∃ p ∈ patterns, ∃ rest, p.1.accepts? (text ++ rest) = true := by
  have each := fun rest => exists_accepts_iff h (text ++ rest)
  constructor
  · rintro ⟨rule, hrule, rest, accepts⟩
    obtain ⟨p, hp, accepts⟩ := (each rest).mpr ⟨rule, hrule, accepts⟩
    exact ⟨p, hp, rest, accepts⟩
  · rintro ⟨p, hp, rest, accepts⟩
    obtain ⟨rule, hrule, accepts⟩ := (each rest).mp ⟨p, hp, accepts⟩
    exact ⟨rule, hrule, rest, accepts⟩

/-- The pattern of a rule for tokens is one for tokens. -/
theorem exists_pattern {index : Nat} {rule : LexerRule α} (hrule : rules.rules[index]? = some rule)
    (accepts : rule.Accepts text) (token : rule.token ≠ none) :
    ∃ p, patterns[index]? = some p ∧ p.2 ≠ .ignore ∧ p.1.accepts? text = true := by
  obtain ⟨nfa, built, accepts⟩ := accepts
  obtain ⟨nfa', built', there⟩ := getElem?_patterns h hrule
  rw [built] at built'
  cases built'
  refine ⟨_, there, ?_, accepts⟩
  rw [if_pos (Option.isSome_iff_ne_none.mpr token)]
  exact Verdict.noConfusion

/-- The first pattern for tokens that accepts a text is that of the first rule for tokens. -/
theorem decides_of_find?_eq_some {p : Nfa × Verdict}
    (found : (patterns.find? fun p => p.2 ≠ .ignore ∧ p.1.accepts? text) = some p) : rules.Decides text p.2 := by
  obtain ⟨holds, index, lt, there, first⟩ := List.find?_eq_some_iff_getElem.mp found
  obtain ⟨notIgnored, accepts⟩ := of_decide_eq_true holds
  obtain ⟨rule, hrule, built, verdict⟩ := exists_rule h (there ▸ List.getElem?_eq_getElem lt)
  cases kind : rule.token with
  | none =>
    rw [kind] at verdict
    exact absurd verdict notIgnored
  | some token =>
    rw [kind] at verdict
    have verdict : p.2 = .token index := verdict
    rw [verdict]
    refine ⟨rule, token, hrule, kind, ⟨p.1, built, accepts⟩, fun j hj earlier hearlier accepts' => ?_⟩
    by_contra token'
    obtain ⟨q, hq, holds'⟩ := exists_pattern h hearlier accepts' token'
    have passed := first j hj
    rw [(List.getElem?_eq_some_iff.mp hq).2, decide_eq_true holds'] at passed
    cases passed

/-- If no pattern for tokens accepts a text, no rule for tokens does. -/
theorem token_eq_none_of_find?_eq_none
    (found : (patterns.find? fun p => p.2 ≠ .ignore ∧ p.1.accepts? text) = none) :
    ∀ rule ∈ rules.rules, rule.Accepts text → rule.token = none := by
  intro rule hrule accepts
  by_contra token
  obtain ⟨index, hindex⟩ := List.mem_iff_getElem?.mp hrule
  obtain ⟨p, hp, holds⟩ := exists_pattern h hindex accepts token
  exact List.find?_eq_none.mp found p (List.mem_of_getElem? hp) (decide_eq_true holds)

/-- **The verdict behind a text says which rules accept it.** -/
theorem decides_verdict (text : List Char) : rules.Decides text
    ((RankedNfa.ofPatterns patterns).verdict ((RankedNfa.ofPatterns patterns).nfa.run text)) := by
  rw [RankedNfa.verdict_run (isBuilt_patterns h)]
  cases found : patterns.find? fun p => p.2 ≠ .ignore ∧ p.1.accepts? text with
  | some p => exact decides_of_find?_eq_some h found
  | none =>
    have ignored := token_eq_none_of_find?_eq_none h found
    have any : patterns.any (·.1.accepts? text) = true ↔ ∃ rule ∈ rules.rules, rule.Accepts text :=
      List.any_eq_true.trans (exists_accepts_iff h text)
    change rules.Decides text (if _ then _ else _)
    by_cases some : ∃ rule ∈ rules.rules, rule.Accepts text
    · rw [if_pos (any.mpr some)]
      exact ⟨some, ignored⟩
    · rw [if_neg (mt any.mp some)]
      exact fun rule hrule accepts => some ⟨rule, hrule, accepts⟩

end Patterns
end LexerRules

/-! ## Following all edges -/

namespace RankedNfa

/-- **The simulation takes a text until it is stuck**, and is then in the set behind what it has taken. -/
theorem munch_run (ranked : RankedNfa) (before text : List Char) :
    ∃ lexeme, munch ranked (ranked.nfa.run before) text = (lexeme, ranked.nfa.run (before ++ lexeme)) ∧
      lexeme <+: text ∧ (lexeme ≠ [] → ranked.nfa.run (before ++ lexeme) ≠ []) ∧
      ∀ c, lexeme ++ [c] <+: text → ranked.nfa.run (before ++ lexeme ++ [c]) = [] := by
  induction text generalizing before with
  | nil =>
    refine ⟨[], by rw [munch, List.append_nil], List.prefix_rfl, fun ne => absurd rfl ne, fun c impossible => ?_⟩
    cases List.prefix_nil.mp impossible
  | cons c text ih =>
    have step : ranked.nfa.step (ranked.nfa.run before) c = ranked.nfa.run (before ++ [c]) := Nfa.run_append.symm
    have next : Matcher.next ranked (ranked.nfa.run before) c =
        if (ranked.nfa.run (before ++ [c])).isEmpty then none else some (ranked.nfa.run (before ++ [c])) := by
      rw [← step]
      rfl
    rw [munch, next]
    cases stuck : (ranked.nfa.run (before ++ [c])).isEmpty with
    | true =>
      refine ⟨[], by rw [List.append_nil]; rfl, List.nil_prefix, fun ne => absurd rfl ne, fun d front => ?_⟩
      obtain rfl := (List.cons_prefix_cons.mp front).1
      rw [List.append_nil]
      exact List.isEmpty_iff.mp stuck
    | false =>
      obtain ⟨lexeme, taken, front, some, last⟩ := ih (before ++ [c])
      rw [List.append_assoc, List.singleton_append] at taken some last
      refine ⟨c :: lexeme, ?_, List.cons_prefix_cons.mpr ⟨rfl, front⟩, fun _ => ?_, fun d longer => ?_⟩
      · change ((c :: (munch ranked (ranked.nfa.run (before ++ [c])) text).1, _) : List Char × List Nat) = _
        rw [taken]
      · cases lexeme with
        | nil => exact fun nil => by simp [nil] at stuck
        | cons d lexeme => exact some (List.cons_ne_nil _ _)
      · exact last d (List.cons_prefix_cons.mp longer).2

end RankedNfa

namespace LexerRules
variable {rules : LexerRules α} {patterns : PatternList}

/-- **A matcher that agrees with the simulation takes the longest viable front.** -/
theorem munches_munch {ε σ : Type} [Matcher ε σ] {matcher : ε} (h : rules.patterns = .ok patterns)
    (agree : Matcher.Agree (RankedNfa.ofPatterns patterns) matcher) (input : List Char) :
    rules.Munches input (munch matcher (Matcher.initial matcher) input).1 ∧
      rules.Decides (munch matcher (Matcher.initial matcher) input).1
        (Matcher.verdict matcher (munch matcher (Matcher.initial matcher) input).2) := by
  obtain ⟨lexeme, taken, front, some, stuck⟩ := (RankedNfa.ofPatterns patterns).munch_run [] input
  obtain ⟨same, verdict⟩ := agree.munch_eq input
  have taken : munch (RankedNfa.ofPatterns patterns) (Matcher.initial (RankedNfa.ofPatterns patterns)) input =
    (lexeme, (RankedNfa.ofPatterns patterns).nfa.run lexeme) := taken
  rw [taken] at same verdict
  rw [← same, ← verdict]
  have reads (text : List Char) (ne : text ≠ []) : (RankedNfa.ofPatterns patterns).nfa.run text ≠ [] ↔
      rules.Viable text := by
    rw [viable_iff h, ← RankedNfa.exists_mem_run_iff (isBuilt_patterns h) ne]
    exact ⟨List.exists_mem_of_ne_nil _, fun ⟨_, hs⟩ => List.ne_nil_of_mem hs⟩
  refine ⟨munches_of_stuck front (fun ne => (reads lexeme ne).mp (some ne)) fun c longer viable => ?_, ?_⟩
  · exact (reads _ (by simp)).mpr viable (stuck c longer)
  · exact decides_verdict h lexeme

end LexerRules
end TableParsing
