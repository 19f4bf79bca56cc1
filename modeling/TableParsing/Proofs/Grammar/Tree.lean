import TableParsing.Grammar.Basic
import TableParsing.Lexer.Token

/-! # Derivation trees

A tree of a symbol says how the symbol derives a list of tokens: a terminal is a token of that terminal, a
non-terminal one of its productions with trees for the symbols on the right-hand side.  By their types,
**all trees follow the productions of the grammar**.

The value of a tree is made bottom up: tokens have values, and a production makes a value from the values of
its symbols.  The action of an error production is given a syntax error besides; which one it is given is part of
the tree. -/

namespace TableParsing

variable {α : Type}

/-- The value that an action makes; one that takes no syntax error does not look at it. -/
def SemanticAction.apply : SemanticAction α → SyntaxError → List α → α
  | ofValues f, _, values => f values
  | ofError f, error, values => f error values

/-- Whether an action takes no syntax error. -/
def SemanticAction.IsOrdinary : SemanticAction α → Prop
  | ofValues _ => True
  | ofError _ => False

theorem SemanticAction.IsOrdinary.apply_eq {action : SemanticAction α} (h : action.IsOrdinary) (e e' : SyntaxError)
    (values : List α) : action.apply e values = action.apply e' values := by
  cases action with
  | ofValues f => rfl
  | ofError f => cases h

namespace Grammar

mutual

/-- A derivation tree of a symbol. -/
inductive Tree (grammar : Grammar α) : Symbol → Type
  /-- A terminal is a token. -/
  | leaf (token : Token α) : Tree grammar (.terminal token.terminal)
  /-- A non-terminal is one of its productions. -/
  | node (p : Nat) (production : Production α) (there : grammar.productions[p]? = some production)
      (error : SyntaxError) (children : Forest grammar production.symbols) :
      Tree grammar (.nonTerminal production.result)

/-- Derivation trees of the symbols of a list. -/
inductive Forest (grammar : Grammar α) : List Symbol → Type
  | nil : Forest grammar []
  | cons {symbol : Symbol} {symbols : List Symbol} (tree : Tree grammar symbol)
      (rest : Forest grammar symbols) : Forest grammar (symbol :: symbols)

end

variable {grammar : Grammar α} {symbol : Symbol} {symbols : List Symbol}

mutual

/-- The tokens at the leaves, from left to right. -/
def Tree.yield {symbol : Symbol} : grammar.Tree symbol → List (Token α)
  | .leaf token => [token]
  | .node _ _ _ _ children => children.yield

/-- The tokens at the leaves of all trees, from left to right. -/
def Forest.yield {symbols : List Symbol} : grammar.Forest symbols → List (Token α)
  | .nil => []
  | .cons tree rest => tree.yield ++ rest.yield

end

mutual

/-- The value of a tree. -/
def Tree.value {symbol : Symbol} : grammar.Tree symbol → α
  | .leaf token => token.value
  | .node _ production _ error children => production.action.apply error children.values

/-- The values of the trees. -/
def Forest.values {symbols : List Symbol} : grammar.Forest symbols → List α
  | .nil => []
  | .cons tree rest => tree.value :: rest.values

end

mutual

/-- Whether no production in the tree takes a syntax error. -/
def Tree.IsOrdinary {symbol : Symbol} : grammar.Tree symbol → Prop
  | .leaf _ => True
  | .node _ production _ _ children => production.action.IsOrdinary ∧ children.IsOrdinary

/-- Whether no production in the trees takes a syntax error. -/
def Forest.IsOrdinary {symbols : List Symbol} : grammar.Forest symbols → Prop
  | .nil => True
  | .cons tree rest => tree.IsOrdinary ∧ rest.IsOrdinary

end

mutual

/-- The number of leaves and nodes of a tree, which is the number of steps in which it is parsed. -/
def Tree.steps {symbol : Symbol} : grammar.Tree symbol → Nat
  | .leaf _ => 1
  | .node _ _ _ _ children => children.steps + 1

/-- The number of leaves and nodes of the trees. -/
def Forest.steps {symbols : List Symbol} : grammar.Forest symbols → Nat
  | .nil => 0
  | .cons tree rest => tree.steps + rest.steps

end

/-! ## Tops of trees -/

/-- A tree of a terminal is a token of it. -/
theorem Tree.exists_token {t : Nat} (tree : grammar.Tree symbol) (h : symbol = .terminal t) :
    ∃ token, tree.yield = [token] ∧ token.terminal = t := by
  cases tree with
  | leaf token => exact ⟨token, rfl, Symbol.terminal.inj h⟩
  | node => cases h

/-- A tree of a non-terminal has a production on top. -/
theorem Tree.exists_children {n : Nat} (tree : grammar.Tree symbol) (h : symbol = .nonTerminal n) :
    ∃ (p : Nat) (production : Production α) (children : grammar.Forest production.symbols),
      grammar.productions[p]? = some production ∧ production.result = n ∧ tree.yield = children.yield := by
  cases tree with
  | leaf token => cases h
  | node p production there error children =>
    exact ⟨p, production, children, there, Symbol.nonTerminal.inj h, rfl⟩

/-! ## One more tree -/

/-- The trees with one more behind them. -/
def Forest.snoc {symbol : Symbol} (tree : grammar.Tree symbol) :
    {symbols : List Symbol} → grammar.Forest symbols → grammar.Forest (symbols ++ [symbol])
  | _, .nil => .cons tree .nil
  | _, .cons first rest => .cons first (rest.snoc tree)

theorem Forest.yield_snoc (tree : grammar.Tree symbol) :
    ∀ {symbols : List Symbol} (forest : grammar.Forest symbols),
      (forest.snoc tree).yield = forest.yield ++ tree.yield
  | _, .nil => by rw [snoc, yield, yield, yield, List.append_nil, List.nil_append]
  | _, .cons first rest => by rw [snoc, yield, rest.yield_snoc tree, yield, List.append_assoc]

theorem Forest.values_snoc (tree : grammar.Tree symbol) :
    ∀ {symbols : List Symbol} (forest : grammar.Forest symbols),
      (forest.snoc tree).values = forest.values ++ [tree.value]
  | _, .nil => by rw [snoc, values, values, values, List.nil_append]
  | _, .cons first rest => by rw [snoc, values, rest.values_snoc tree, values, List.cons_append]

end Grammar
end TableParsing
