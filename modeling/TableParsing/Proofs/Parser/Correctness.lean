import Mathlib
import TableParsing.Proofs.Lexer.Literal
import TableParsing.Proofs.Lexer.Tokenization
import TableParsing.Proofs.Parser.Completeness
import TableParsing.Proofs.Parser.Soundness
import TableParsing.Proofs.Table.Agreement

/-! # What derives is parsed

Every derivation tree of a grammar without precedence is found.  Completeness needs all actions: precedence takes some
of them away, so the grammar must do without. -/

namespace TableParsing

/-- A grammar has a lexer if the patterns of its tokens are well formed. -/
theorem Grammar.exists_lexer {α : Type} [Inhabited α] {grammar : Grammar α}
    (compiles : ∀ rule ∈ grammar.lexerRules.rules, ∃ nfa, Nfa.ofPattern rule.pattern = .ok nfa) :
    ∃ lexer, grammar.lexer.run.value = .ok lexer := by
  obtain ⟨lexer, compiled, -⟩ := LexerRules.exists_isOf
    (fun _ options built => agree_ofPatterns built options) rfl compiles
  exact ⟨lexer, compiled⟩

/-- So a grammar whose tokens have literal texts has a parser if it has tables. -/
theorem Grammar.IsLiteral.exists_toParser {α : Type} [Inhabited α] {grammar : Grammar α} (h : grammar.IsLiteral)
    {options : ParserOptions} (built : ∃ table, grammar.table options.mergeCores = .ok table) :
    ∃ parser, (grammar.toParser options).run.value = .ok parser := by
  obtain ⟨lexer, made⟩ := Grammar.exists_lexer h.compiles
  obtain ⟨table, built⟩ := built
  exact Grammar.exists_toParser made built

/-! ## The grammar of a letter -/

/-- The grammar of the text a, whose value is that of its token. -/
def letter : Grammar Nat where
  terminals := [⟨"$end", .reserved, none⟩, ⟨"error", .reserved, none⟩, ⟨"a", .literal "a", none⟩]
  nonTerminals := ["s"]
  productions := [⟨0, [.terminal 2], .ofValues fun values => values.headD 0, none⟩]
  start := 0
  ignored := []
  lexerOptions := {}

namespace letter

theorem declared : letter.Declared :=
  ⟨_, .start (.production (.nonTerminal .empty "s") 0 [.literal "a"]
    (.ofValues fun values => values.headD 0)) 0, rfl⟩

theorem hasNoPrecedence : letter.HasNoPrecedence := by decide

theorem isSingle : letter.IsSingle 2 := ⟨_, rfl, rfl, rfl⟩

theorem isLiteral : letter.IsLiteral := ⟨rfl, by decide⟩

theorem exists_toParser (options : ParserOptions) :
    ∃ parser, (letter.toParser options).run.value = .ok parser :=
  isLiteral.exists_toParser (isSingle.exists_table declared.wellFormed options.mergeCores)

/-- The tree of a token. -/
def tree (value : Nat) : letter.Tree (.nonTerminal 0) :=
  .node 0 ⟨0, [.terminal 2], .ofValues fun values => values.headD 0, none⟩ rfl default
    (.cons (.leaf ⟨2, "a", ⟨0, 1⟩, value⟩) .nil)

/-- The token, and the end of the input behind it. -/
def source (value : Nat) : TokenStream Nat := .ofList [.ok ⟨2, "a", ⟨0, 1⟩, value⟩]

theorem begins_source (value : Nat) :
    (source value).Begins ((tree value).yield ++ [⟨endTerminal, "", ⟨0, 0⟩, default⟩]) := by
  intro i token hi
  match i with
  | 0 | 1 => exact congrArg Except.ok (Option.some.inj hi)

end letter

variable {α : Type} [Inhabited α]

/-- **What derives from the grammar is parsed.**  The tokens of a tree with ordinary productions, and the end of
the input behind them, come to the value of the tree, and no run over them ever recovers.  So trees of the same
tokens have the same value. -/
theorem parse_complete {grammar : Grammar α} (declared : grammar.Declared)
    (noPrecedence : grammar.HasNoPrecedence) {options : ParserOptions} {parser : Parser α}
    (compiled : (grammar.toParser options).run.value = .ok parser)
    (tree : grammar.Tree (.nonTerminal grammar.start)) (ordinary : tree.IsOrdinary) {last : Token α}
    (atEnd : last.terminal = endTerminal) {source : TokenStream α}
    (tokens : source.Begins (tree.yield ++ [last])) :
    (∀ limit, tree.steps < limit →
      (parser.machine.parse source limit).value = some (.ok tree.value)) ∧
    (∀ c, parser.machine.Reaches source c → c.errors = 0) ∧
    ∀ other : grammar.Tree (.nonTerminal grammar.start), other.IsOrdinary → other.yield = tree.yield →
      other.value = tree.value := by
  have realizes := Grammar.realizes_of_toParser declared noPrecedence compiled
  refine ⟨fun limit enough => tree.value_parse realizes ordinary atEnd tokens enough,
    fun c reaches => tree.errors_eq_zero realizes ordinary atEnd tokens reaches, fun other ordinary' same => ?_⟩
  -- both trees are parsed by one and the same run
  have enough : tree.steps < tree.steps + other.steps + 1 := by omega
  have enough' : other.steps < tree.steps + other.steps + 1 := by omega
  have first := tree.value_parse realizes ordinary atEnd tokens enough
  have second := other.value_parse realizes ordinary' atEnd (same ▸ tokens) enough'
  exact Except.ok.inj (Option.some.inj (second.symm.trans first))

theorem parse_complete_letter : ∃ parser : Parser Nat, (letter.toParser {}).run.value = .ok parser ∧
    (letter.source 7).Begins ((letter.tree 7).yield ++ [⟨endTerminal, "", ⟨0, 0⟩, default⟩]) ∧
    (parser.machine.parse (letter.source 7) 3).value = some (.ok 7) := by
  obtain ⟨parser, compiled⟩ := letter.exists_toParser {}
  have complete := parse_complete letter.declared letter.hasNoPrecedence compiled (letter.tree 7)
    ⟨trivial, trivial, trivial⟩ rfl (letter.begins_source 7)
  exact ⟨parser, compiled, letter.begins_source 7, complete.1 3 (by decide)⟩

end TableParsing
