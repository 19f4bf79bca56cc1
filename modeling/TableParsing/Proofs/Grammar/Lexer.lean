import Mathlib.Order.Bounds.Basic
import TableParsing.Proofs.Grammar.Terminals
import TableParsing.Proofs.Parser.Correctness

/-! # The tokens of a grammar

The terminals of a grammar have numbers, and so have the rules of its lexer, in another order: texts first, then
patterns, then what is ignored.  The lexer goes by the rules.  What comes of that for the terminals is what the author of
a grammar expects (`Grammar.Classifies`): a text that has a terminal of its own is a token of that terminal, and any other
is one of the first terminal with a pattern that accepts it.

So a lexer makes tokens of the grammar's terminals only, and **a parser of a text never meets a terminal that it does not
know** (`Grammar.lexer_classifies`). -/

namespace TableParsing

variable {α : Type}

/-! ## Tokens of rules -/

/-- Whether a rule makes tokens of some terminal. -/
def LexerRule.Makes (rule : LexerRule α) (terminal : Nat) : Prop := ∃ kind, rule.token = some kind ∧ kind.terminal = terminal

/-- Whether the first rule for tokens that accepts the text of a token is one for its terminal. -/
def LexerRules.Emits (rules : LexerRules α) (token : Token α) : Prop :=
  token.text ≠ "" ∧ ∃ (index : Nat) (rule : LexerRule α), rules.rules[index]? = some rule ∧ rule.Makes token.terminal ∧
    rule.Accepts token.text.toList ∧ ∀ j < index, ∀ earlier : LexerRule α, rules.rules[j]? = some earlier →
      earlier.Accepts token.text.toList → earlier.token = none

/-- What is known of the token that a scan comes to, if it comes to one, and of that at the end of the input. -/
def ScanResult.Shows (emitted ended : Token α → Prop) : ScanResult α → Prop
  | .token found => emitted found
  | .endOfInput found => ended found
  | .failure _ => True

theorem ScanResult.Shows.mono {emitted emitted' ended : Token α → Prop} (imp : ∀ token, emitted token → emitted' token)
    {result : ScanResult α} (h : result.Shows emitted ended) : result.Shows emitted' ended := by
  cases result with
  | token found => exact imp found h
  | endOfInput | failure => exact h

theorem ScanResult.Shows.of_toExcept {emitted ended : Token α → Prop} {result : ScanResult α} {token : Token α}
    (h : result.Shows emitted ended) (found : result.toExcept = .ok token) : emitted token ∨ ended token := by
  cases result with
  | token => exact .inl (Except.ok.inj found ▸ h)
  | endOfInput => exact .inr (Except.ok.inj found ▸ h)
  | failure => cases found

namespace Lexer

variable {ε σ : Type} [Matcher ε σ] {lexer : Lexer α ε} {rules : LexerRules α} {cursor : Cursor}

/-- **Every token is one of the rules and takes a character at least**, and the last is that of the end. -/
theorem IsOf.shows_nextToken (h : lexer.IsOf rules) (cursor : Cursor) :
    (lexer.nextToken cursor).value.result.Shows
      (fun token => rules.Emits token ∧ (lexer.nextToken cursor).value.cursor.rest.length < cursor.rest.length)
      (·.terminal = lexer.endTerminal) := by
  -- on the input that is left: a lexeme that is skipped leaves less
  induction count : cursor.rest.length using Nat.strongRecOn generalizing cursor with
  | _ length ih =>
    obtain ⟨patterns, compiled, agree⟩ := h.agree
    obtain ⟨-, decides⟩ := LexerRules.munches_munch compiled agree cursor.rest
    have shorter := length_munch_le lexer.matcher (Matcher.initial lexer.matcher) cursor.rest
    rw [nextToken]
    split
    · split
      · exact rfl
      · exact trivial
    · rename_i c cs stop taken
      rw [taken] at decides shorter
      have decides : rules.Decides (c :: cs) (Matcher.verdict lexer.matcher stop) := decides
      have shorter : cs.length + 1 ≤ cursor.rest.length := shorter
      have less : (cursor.advance (cs.length + 1)).rest.length < length := by
        rw [Cursor.rest_advance, List.length_drop]
        omega
      have next := ih _ less (cursor.advance (cs.length + 1)) rfl
      dsimp only
      split
      · exact trivial
      · exact next.mono fun token emits => ⟨emits.1, emits.2.trans less⟩
      · rename_i index verdict
        rw [verdict] at decides
        obtain ⟨rule, kind, there, isToken, accepts, first⟩ := decides
        rw [h.getD_classes there, isToken]
        have text : (String.ofList (c :: cs)).toList = c :: cs := String.toList_ofList
        refine ⟨⟨fun empty => ?_, index, rule, there, ⟨kind, isToken, rfl⟩, ?_, ?_⟩, less⟩
        · exact List.cons_ne_nil c cs (text.symm.trans (String.toList_eq_nil_iff.mpr empty))
        · exact text.symm ▸ accepts
        · exact text.symm ▸ first

variable {emitted ended : Token α → Prop}

/-- What holds of every scan holds of those of an input. -/
theorem shows_of_mem_scansFrom (shows : ∀ cursor, (lexer.nextToken cursor).value.result.Shows emitted ended)
    (calls : Nat) (cursor : Cursor) : ∀ scan ∈ lexer.scansFrom calls cursor, scan.value.result.Shows emitted ended := by
  induction calls generalizing cursor with
  | zero => exact fun _ h => absurd h List.not_mem_nil
  | succ calls ih =>
    rw [scansFrom]
    split
    · exact List.forall_mem_cons.mpr ⟨shows cursor, ih _⟩
    · exact List.forall_mem_singleton.mpr (shows cursor)

/-- **If an input can be split into tokens, the last of them is that of its end**, and the others come from scans. -/
theorem exists_front_of_scansFrom (shows : ∀ cursor, (lexer.nextToken cursor).value.result.Shows (fun token =>
      emitted token ∧ (lexer.nextToken cursor).value.cursor.rest.length < cursor.rest.length) ended)
    {calls : Nat} {tokens : List (Token α)} (enough : cursor.rest.length < calls)
    (whole : (lexer.scansFrom calls cursor).mapM (fun scan => scan.value.result.toExcept) = .ok tokens) :
    ∃ front last, tokens = front ++ [last] ∧ (∀ token ∈ front, emitted token) ∧ ended last := by
  induction calls generalizing cursor tokens with
  | zero => omega
  | succ calls ih =>
    have here := shows cursor
    rw [scansFrom] at whole
    split at whole
    · rename_i token result
      rw [List.mapM_cons] at whole
      obtain ⟨found, hfound, whole⟩ := Except.bind_eq_ok_iff.mp whole
      obtain ⟨others, hothers, whole⟩ := Except.bind_eq_ok_iff.mp whole
      rw [result] at hfound here
      cases hfound
      cases whole
      obtain ⟨isEmitted, less⟩ := here
      obtain ⟨front, last, rfl, all, isLast⟩ := ih (by omega) hothers
      exact ⟨token :: front, last, rfl, List.forall_mem_cons.mpr ⟨isEmitted, all⟩, isLast⟩
    · rename_i noToken
      rw [List.mapM_cons] at whole
      obtain ⟨found, hfound, whole⟩ := Except.bind_eq_ok_iff.mp whole
      cases whole
      refine ⟨[], found, rfl, fun _ h => absurd h List.not_mem_nil, ?_⟩
      cases result : (lexer.nextToken cursor).value.result with
      | token token => exact absurd result (noToken token)
      | endOfInput token =>
        rw [result] at hfound here
        cases hfound
        exact here
      | failure error =>
        rw [result] at hfound
        cases hfound

end Lexer

/-- A lexer that rules are compiled to is theirs. -/
theorem LexerRules.isOf_of_compile {rules : LexerRules α} {lexer : Lexer α TransitionTable}
    (h : rules.compile.run.value = .ok lexer) : lexer.IsOf rules := by
  rw [compile] at h
  split at h
  · rename_i terminal value declared
    obtain ⟨patterns, hpatterns, h⟩ := Logged.bind_eq_ok_iff.mp h
    obtain ⟨matcher, hmatcher, h⟩ := Logged.bind_eq_ok_iff.mp h
    obtain ⟨_, -, h⟩ := Logged.bind_eq_ok_iff.mp h
    have hpatterns : rules.patterns = .ok patterns := hpatterns
    cases hmatcher
    cases h
    exact ⟨⟨patterns, hpatterns, agree_ofPatterns (isBuilt_patterns hpatterns) rules.options⟩, rfl, declared⟩
  · cases h

/-! ## Rules of a grammar -/

namespace Grammar

/-- Whether a terminal was declared for a text. -/
def IsWord (grammar : Grammar α) (text : String) (t : Nat) : Prop :=
  (kindsOf grammar.terminals)[t]? = some (.literal text)

/-- Whether a terminal has a pattern whose own automaton accepts a text. -/
def Matches (grammar : Grammar α) (text : String) (t : Nat) : Prop :=
  ∃ regex value nfa, (kindsOf grammar.terminals)[t]? = some (.pattern regex value) ∧
    Nfa.ofPattern regex = .ok nfa ∧ nfa.accepts? text.toList = true

/-- Whether a token is of the terminal that its text belongs to. -/
structure Classifies (grammar : Grammar α) (token : Token α) : Prop where
  /-- A text with a terminal of its own is a token of that terminal. -/
  word : ∀ t, grammar.IsWord token.text t → token.terminal = t
  /-- Any other text is one of the first terminal with a pattern that accepts it. -/
  pattern : (∀ t, ¬grammar.IsWord token.text t) → IsLeast {t | grammar.Matches token.text t} token.terminal
  ne_end : token.terminal ≠ endTerminal
  ne_error : token.terminal ≠ errorTerminal

variable {grammar : Grammar α}

theorem Classifies.lt {token : Token α} (h : grammar.Classifies token) : token.terminal < grammar.terminals.length := by
  have bound {t : Nat} {kind : TerminalKind α} (ht : (kindsOf grammar.terminals)[t]? = some kind) :
      t < grammar.terminals.length := by
    have := (List.getElem?_eq_some_iff.mp ht).1
    rwa [kindsOf, List.length_map] at this
  by_cases isWord : ∃ t, grammar.IsWord token.text t
  · obtain ⟨t, ht⟩ := isWord
    exact h.word t ht ▸ bound ht
  · obtain ⟨_, _, _, ht, -⟩ := (h.pattern (not_exists.mp isWord)).1
    exact bound ht

/-- The rules for patterns stand in the order of their terminals. -/
theorem pairwise_patternRules (grammar : Grammar α) :
    grammar.patternRules.Pairwise fun a b => ∀ s t, a.Makes s → b.Makes t → s < t := by
  have numbered : grammar.terminals.zipIdx.Pairwise fun p q => p.2 < q.2 := by
    have ascending := List.pairwise_lt_range' (s := 0) (n := grammar.terminals.length)
    rwa [← List.zipIdx_map_snd, List.pairwise_map] at ascending
  refine List.pairwise_filterMap.mpr (numbered.imp ?_)
  rintro ⟨terminal, i⟩ ⟨terminal', j⟩ less a ha b hb s t ⟨kind, isToken, rfl⟩ ⟨kind', isToken', rfl⟩
  dsimp only at ha hb
  split at ha
  · cases ha
    cases isToken
    split at hb
    · cases hb
      cases isToken'
      exact less
    · cases hb
  · cases ha

/-- Of two rules for patterns that of the lower terminal comes first. -/
theorem lt_of_makes_lt {i j s t : Nat} {a b : LexerRule α} (ha : grammar.patternRules[i]? = some a)
    (hb : grammar.patternRules[j]? = some b) (makes : a.Makes s) (makes' : b.Makes t) (less : s < t) : i < j := by
  obtain ⟨hi, rfl⟩ := List.getElem?_eq_some_iff.mp ha
  obtain ⟨hj, rfl⟩ := List.getElem?_eq_some_iff.mp hb
  rcases Nat.lt_trichotomy i j with before | rfl | behind
  · exact before
  · obtain ⟨kind, isToken, rfl⟩ := makes
    obtain ⟨kind', isToken', rfl⟩ := makes'
    cases isToken.symm.trans isToken'
    exact absurd less (Nat.lt_irrefl _)
  · have := List.pairwise_iff_getElem.mp grammar.pairwise_patternRules j i hj hi behind t s makes' makes
    omega

/-- A rule that makes tokens and is not one for a text is one for a pattern. -/
theorem getElem?_patternRules {i t : Nat} {rule : LexerRule α} (makes : rule.Makes t)
    (there : (grammar.patternRules ++ grammar.ignored.map fun regex => ⟨regex, none⟩)[i]? = some rule) :
    grammar.patternRules[i]? = some rule := by
  rw [List.getElem?_append] at there
  split at there
  · exact there
  · obtain ⟨regex, -, rfl⟩ := List.mem_map.mp (List.mem_of_getElem? there)
    obtain ⟨kind, isToken, -⟩ := makes
    cases isToken

/-- The first rule for a pattern that accepts a text belongs to the first terminal with such a pattern. -/
theorem isLeast_of_first {text : String} {i t : Nat} {rule : LexerRule α}
    (there : grammar.patternRules[i]? = some rule) (makes : rule.Makes t) (accepts : rule.Accepts text.toList)
    (first : ∀ j < i, ∀ earlier, grammar.patternRules[j]? = some earlier → earlier.Accepts text.toList →
      earlier.token = none) :
    IsLeast {t | grammar.Matches text t} t := by
  obtain ⟨regex, value, t', isPattern, rfl⟩ := mem_patternRules.mp (List.mem_of_getElem? there)
  obtain ⟨kind, isToken, rfl⟩ := id makes
  cases isToken
  obtain ⟨nfa, built, accepted⟩ := accepts
  refine ⟨⟨regex, value, nfa, isPattern, built, accepted⟩, ?_⟩
  rintro s ⟨regex', value', nfa', isPattern', built', accepted'⟩
  by_contra less
  obtain ⟨j, hj⟩ := List.mem_iff_getElem?.mp (mem_patternRules.mpr ⟨regex', value', s, isPattern', rfl⟩)
  have before := lt_of_makes_lt hj there ⟨_, rfl, rfl⟩ makes (Nat.lt_of_not_le less)
  cases first j before _ hj ⟨nfa', built', accepted'⟩

/-! ## Tokens of a grammar -/

section Classification
variable [Inhabited α]

theorem rules_lexerRules (grammar : Grammar α) : grammar.lexerRules.rules =
    grammar.literalRules ++ (grammar.patternRules ++ grammar.ignored.map fun regex => ⟨regex, none⟩) :=
  List.append_assoc _ _ _

/-- A rule for a text makes tokens of the terminal of that text. -/
theorem isWord_of_mem_literalRules {token : Token α} {rule : LexerRule α} (hrule : rule ∈ grammar.literalRules)
    (makes : rule.Makes token.terminal) (accepts : rule.Accepts token.text.toList) :
    grammar.IsWord token.text token.terminal := by
  obtain ⟨text, t, isWord, rfl⟩ := mem_literalRules.mp hrule
  obtain ⟨kind, isToken, terminal⟩ := makes
  cases isToken
  obtain ⟨same, -⟩ := LexerRule.accepts_escapeLiteral_iff.mp accepts
  rw [← terminal, String.toList_inj.mp same]
  exact isWord

/-- **What the rules make of a text is what it was declared to be.** -/
theorem classifies_of_emits (orderly : TerminalKind.Orderly (kindsOf grammar.terminals)) {token : Token α}
    (emits : grammar.lexerRules.Emits token) : grammar.Classifies token := by
  obtain ⟨ne, index, rule, there, makes, accepts, first⟩ := emits
  rw [rules_lexerRules] at there first
  have read : token.text.toList ≠ [] := mt String.toList_eq_nil_iff.mp ne
  have made {kind : TerminalKind α} (ht : (kindsOf grammar.terminals)[token.terminal]? = some kind)
      (notReserved : kind ≠ .reserved) : token.terminal ≠ endTerminal ∧ token.terminal ≠ errorTerminal := by
    have := orderly.two_le ht notReserved
    rw [endTerminal, errorTerminal]
    omega
  by_cases early : index < grammar.literalRules.length
  · rw [List.getElem?_append_left early] at there
    have isWord := isWord_of_mem_literalRules (List.mem_of_getElem? there) makes accepts
    obtain ⟨ne_end, ne_error⟩ := made isWord nofun
    exact ⟨fun t ht => orderly.distinct isWord ht, fun none => absurd isWord (none _), ne_end, ne_error⟩
  · -- no rule for a text comes before, so the text has no terminal
    have noWord (t : Nat) : ¬grammar.IsWord token.text t := by
      intro isWord
      obtain ⟨j, hj⟩ := List.mem_iff_getElem?.mp (mem_literalRules.mpr ⟨_, t, isWord, rfl⟩)
      have before := (List.getElem?_eq_some_iff.mp hj).1
      cases first j (by omega) _ ((List.getElem?_append_left before).trans hj)
        (LexerRule.accepts_escapeLiteral_iff.mpr ⟨rfl, read⟩)
    rw [List.getElem?_append_right (Nat.le_of_not_lt early)] at there
    have there := getElem?_patternRules makes there
    have least := isLeast_of_first there makes accepts fun j before earlier hj =>
      first (grammar.literalRules.length + j) (by omega) earlier (by
        rw [List.getElem?_append_right (Nat.le_add_right _ _), Nat.add_sub_cancel_left]
        exact List.getElem?_append_left (List.getElem?_eq_some_iff.mp hj).1 ▸ hj)
    obtain ⟨_, _, _, isPattern, -⟩ := least.1
    obtain ⟨ne_end, ne_error⟩ := made isPattern nofun
    exact ⟨fun t ht => absurd ht (noWord t), fun _ => least, ne_end, ne_error⟩

/-- From every place the lexer of a declared grammar comes to a token of the terminal that its text belongs to. -/
theorem Declared.shows_nextToken (declared : grammar.Declared) {lexer : Lexer α TransitionTable}
    (made : grammar.lexer.run.value = .ok lexer) (cursor : Cursor) :
    (lexer.nextToken cursor).value.result.Shows
      (fun token => grammar.Classifies token ∧ (lexer.nextToken cursor).value.cursor.rest.length < cursor.rest.length)
      (·.terminal = endTerminal) := by
  have isOf := LexerRules.isOf_of_compile made
  have ends : lexer.endTerminal = endTerminal := (congrArg Prod.fst (Option.some.inj isOf.endOfInput)).symm
  exact ends ▸ (isOf.shows_nextToken cursor).mono fun token h => ⟨classifies_of_emits declared.orderly h.1, h.2⟩

end Classification
end Grammar

/-! ## Known terminals -/

/-- Whether the tokens that a run has in hand are of the first terminals. -/
structure Configuration.Knows (count : Nat) (c : Configuration α) : Prop where
  lookahead : c.lookahead.terminal < count
  deferred : ∀ token, c.deferred = some token → token.terminal < count

section Known
variable [Inhabited α] {machine : Machine α} {source : TokenStream α} {c c' : Configuration α} {count t : Nat}

namespace Machine

/-- A step goes on in front of a token of the source, a deferred token, the error token or the same token. -/
theorem Step.knows (h : machine.Step source c c') (hc : c.Knows count) (error : errorTerminal < count)
    (known : ∀ n token, (source n).value = .ok token → token.terminal < count) : c'.Knows count := by
  cases h with
  | shift _ deferred read | discard _ deferred _ read => exact ⟨known _ _ read, hc.deferred⟩
  | shiftError _ deferred => exact ⟨hc.deferred _ deferred, nofun⟩
  | reduce => exact ⟨hc.lookahead, hc.deferred⟩
  | recover => exact ⟨error, fun token same => Option.some.inj same ▸ hc.lookahead⟩

theorem Reaches.knows (h : machine.Reaches source c) (error : errorTerminal < count)
    (known : ∀ n token, (source n).value = .ok token → token.terminal < count) : c.Knows count := by
  induction h with
  | start read => exact ⟨known 0 _ read, nofun⟩
  | step _ running ih => exact (step_of_running running).knows ih error known

/-- **Nothing but the lookahead makes a terminal unknown.** -/
theorem unknown_of_finished (h : (machine.step source c).value = .finished (.error (.unknownToken t))) :
    machine.table.actions.terminalCount ≤ c.lookahead.terminal := by
  cases stop_of_finished h with
  | unknown unknown => exact unknown

/-- **A parse of known tokens meets no unknown terminal.** -/
theorem parse_ne_unknownToken (error : errorTerminal < machine.table.actions.terminalCount)
    (known : ∀ n token, (source n).value = .ok token → token.terminal < machine.table.actions.terminalCount)
    (limit : Nat) : (machine.parse source limit).value ≠ some (.error (.unknownToken t)) := by
  intro unknown
  obtain ⟨last, reaches, finish⟩ := exists_finish_of_value_parse unknown nofun
  have := unknown_of_finished finish
  have := (reaches.knows error known).lookahead
  omega

end Machine

/-- A stream of scans has no tokens but theirs, unless there are none. -/
theorem TokenStream.of_value_ofScans {scans : Array (Logged (Scan α))} {n : Nat} {token : Token α}
    (h : (TokenStream.ofScans scans n).value = .ok token) :
    (∃ scan ∈ scans, scan.value.result.toExcept = .ok token) ∨ token = default := by
  rw [ofScans] at h
  split at h
  · rename_i scan there
    exact .inl ⟨scan, Array.mem_of_getElem? there, h⟩
  · rename_i last _ there
    exact .inl ⟨last, Array.mem_of_back? there, h⟩
  · exact .inr (Except.ok.inj h).symm

end Known

/-! ## Words and patterns -/

/-- The grammar of one word that is no name, though it looks like one. -/
def keyword : Grammar Nat where
  terminals := [⟨"$end", .reserved, none⟩, ⟨"error", .reserved, none⟩, ⟨"name", .pattern "[a-z]+" String.length, none⟩,
    ⟨"if", .literal "if", none⟩]
  nonTerminals := ["s"]
  productions := [⟨0, [.terminal 3], .ofValues fun values => values.headD 0, none⟩]
  start := 0
  ignored := []
  lexerOptions := {}

namespace keyword

theorem declared : keyword.Declared :=
  ⟨_, .start (.production (.nonTerminal (.terminal .empty "name" "[a-z]+" String.length) "s") 0 [.literal "if"]
    (.ofValues fun values => values.headD 0)) 0, rfl⟩

theorem rules_eq : keyword.lexerRules.rules =
    [⟨escapeLiteral "if", some ⟨3, fun _ => default⟩⟩, ⟨"[a-z]+", some ⟨2, String.length⟩⟩] := rfl

/-- Both rules accept the word. -/
theorem accepts {rule : LexerRule Nat} (hrule : rule ∈ keyword.lexerRules.rules) : rule.Accepts ['i', 'f'] := by
  rw [rules_eq, List.mem_cons, List.mem_singleton] at hrule
  rcases hrule with rfl | rfl
  · exact words.accepts_word.mpr rfl
  · exact words.accepts_name.mpr (by decide)

theorem compiles : ∀ rule ∈ keyword.lexerRules.rules, ∃ nfa, Nfa.ofPattern rule.pattern = .ok nfa := by
  intro rule hrule
  obtain ⟨nfa, built, -⟩ := accepts hrule
  exact ⟨nfa, built⟩

/-- The rule of the word is the first. -/
theorem tokenizes_word : keyword.lexerRules.Tokenizes 0 "if".toList
    (.ok [⟨3, "if", ⟨0, 2⟩, 0⟩, ⟨endTerminal, "", ⟨2, 2⟩, 0⟩]) := by
  have first : keyword.lexerRules.rules[0]? = some ⟨escapeLiteral "if", some ⟨3, fun _ => default⟩⟩ := rfl
  have there := List.mem_of_getElem? first
  have munches : keyword.lexerRules.Munches (['i', 'f'] ++ []) ['i', 'f'] :=
    LexerRules.munches_of_accepts there (accepts there) fun _ hc => by cases hc
  have scans : keyword.lexerRules.Scans 0 (['i', 'f'] ++ []) (.token ⟨3, "if", ⟨0, 2⟩, 0⟩) 2 [] :=
    .token (List.cons_ne_nil _ _) munches first rfl (accepts there) nofun rfl rfl
  exact .next scans (.finished (.endOfInput rfl rfl rfl))

theorem exists_toParser : ∃ parser, (keyword.toParser {}).run.value = .ok parser := by
  obtain ⟨lexer, made⟩ := Grammar.exists_lexer compiles
  have isSingle : keyword.IsSingle 3 := ⟨_, rfl, rfl, rfl⟩
  obtain ⟨table, built⟩ := isSingle.exists_table declared.wellFormed true
  exact Grammar.exists_toParser made built

end keyword

namespace Grammar

variable [Inhabited α]

/-- **A lexer prefers words and knows the terminals of its grammar.**  Every token that it comes to is of the terminal of
its text, if that was declared, or of the first terminal with a pattern that accepts the text; if the whole input can be
split into tokens, these are followed by one token of the end.  So whatever the limit of its run, a parser of the grammar
meets no unknown terminal in a text. -/
theorem lexer_classifies {grammar : Grammar α} (declared : grammar.Declared) {lexer : Lexer α TransitionTable}
    (made : grammar.lexer.run.value = .ok lexer) (text : String) :
    (∀ cursor token, (lexer.nextToken cursor).value.result = .token token → grammar.Classifies token) ∧
    (∀ cursor token, (lexer.nextToken cursor).value.result = .endOfInput token → token.terminal = endTerminal) ∧
    (∀ tokens, (lexer.tokenize text).value = .ok tokens → ∃ front last, tokens = front ++ [last] ∧
      (∀ token ∈ front, grammar.Classifies token) ∧ last.terminal = endTerminal) ∧
    ∀ options parser, (grammar.toParser options).run.value = .ok parser → parser.lexer = lexer ∧
      ∀ limit t, (parser.machine.parse (.ofScans (parser.lexer.scans text).toArray) limit).value ≠
        some (.error (.unknownToken t)) := by
  have shows := declared.shows_nextToken made
  have shows' (cursor : Cursor) := (shows cursor).mono fun _ => And.left
  refine ⟨fun cursor token result => ?_, fun cursor token result => ?_, fun tokens whole => ?_,
    fun options parser compiled => ?_⟩
  · have here := shows' cursor
    rwa [result] at here
  · have here := shows' cursor
    rwa [result] at here
  · refine Lexer.exists_front_of_scansFrom shows (Nat.lt_succ_of_le (Nat.le_of_eq ?_)) whole
    exact String.length_toList
  · have same : lexer = parser.lexer := Except.ok.inj (made.symm.trans (lexer_of_toParser compiled))
    subst same
    refine ⟨rfl, fun limit t => ?_⟩
    have wf := declared.wellFormed
    obtain ⟨table, built, machine⟩ := table_of_toParser compiled
    have drives := Machine.drives_ofGrammar built options (Cfg.isAutomaton_collection wf options.mergeCores)
    have count : parser.machine.table.actions.terminalCount = grammar.terminals.length :=
      machine ▸ drives.terminalCount_eq
    refine Machine.parse_ne_unknownToken (count.symm ▸ wf.errorTerminal_lt) (fun n token answer => ?_) limit
    rw [count]
    rcases TokenStream.of_value_ofScans answer with ⟨scan, hscan, found⟩ | rfl
    · have here := Lexer.shows_of_mem_scansFrom shows' _ _ scan (List.mem_toArray.mp hscan)
      rcases here.of_toExcept found with classifies | atEnd
      · exact classifies.lt
      · exact atEnd ▸ wf.endTerminal_lt
    · exact wf.endTerminal_lt

/-- The word is a token of its own terminal, though it matches the pattern of the other. -/
theorem lexer_classifies_keyword : ∃ parser, (keyword.toParser {}).run.value = .ok parser ∧
    (parser.lexer.tokenize "if").value = .ok [⟨3, "if", ⟨0, 2⟩, 0⟩, ⟨endTerminal, "", ⟨2, 2⟩, 0⟩] ∧
    (∀ cursor token, (parser.lexer.nextToken cursor).value.result = .token token → token.text = "if" →
      token.terminal = 3) ∧
    ∀ limit t, (parser.machine.parse (.ofScans (parser.lexer.scans "if").toArray) limit).value ≠
      some (.error (.unknownToken t)) := by
  obtain ⟨parser, compiled⟩ := keyword.exists_toParser
  have made := lexer_of_toParser compiled
  obtain ⟨emitted, -, -, parses⟩ := lexer_classifies keyword.declared made "if"
  have governs := LexerRules.governs_of_isOf (LexerRules.isOf_of_compile made)
  refine ⟨parser, compiled, keyword.tokenizes_word.unique (governs.tokenize "if" (by decide)),
    fun cursor token result text => ?_, (parses {} parser compiled).2⟩
  exact (emitted cursor token result).word 3 (text ▸ rfl)

end Grammar
end TableParsing
