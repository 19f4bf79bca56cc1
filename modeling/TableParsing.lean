import TableParsing.Text.Span
import TableParsing.CharSet.Range
import TableParsing.CharSet.Basic
import TableParsing.CharSet.Elementary
import TableParsing.CharSet.Printer
import TableParsing.Lexer.Options
import TableParsing.Parser.Options
import TableParsing.Lexer.Token
import TableParsing.Pattern.Operation
import TableParsing.Diagnostic
import TableParsing.Pattern.Error
import TableParsing.Pattern.Token
import TableParsing.Pattern.Postfix
import TableParsing.Numbering
import TableParsing.Discovery
import TableParsing.Nfa.Basic
import TableParsing.Nfa.Simulation
import TableParsing.Nfa.Thompson
import TableParsing.Bisection
import TableParsing.Lexer.Verdict
import TableParsing.Nfa.Ranked
import TableParsing.Dfa.Basic
import TableParsing.Dfa.Subset
import TableParsing.Fixpoint
import TableParsing.Dfa.Minimal
import TableParsing.Table.Packed
import TableParsing.Table.Transition
import TableParsing.Event
import TableParsing.Lexer.Matcher
import TableParsing.Lexer.Error
import TableParsing.Lexer.Cursor
import TableParsing.Lexer.Scan
import TableParsing.Lexer.Rules
import TableParsing.Lr.TerminalSet
import TableParsing.Grammar.Symbol
import TableParsing.Lr.Item
import TableParsing.Lr.First
import TableParsing.Lr.Closure
import TableParsing.Lr.Collection
import TableParsing.Table.Action
import TableParsing.Table.Goto
import TableParsing.Parser.Error
import TableParsing.Grammar.Basic
import TableParsing.Grammar.Error
import TableParsing.Grammar.Draft
import TableParsing.Grammar.Lexer
import TableParsing.Lr.Conflict
import TableParsing.Table.Parser
import TableParsing.Parser.Machine
import TableParsing.Parser.Run
import TableParsing.Parser.Driver
import TableParsing.Parser.Basic
import TableParsing.Proofs.Numbering
import TableParsing.Proofs.Discovery
import TableParsing.Proofs.Except
import TableParsing.Proofs.Fixpoint
import TableParsing.Proofs.Grammar.Declared
import TableParsing.Proofs.Grammar.Tree
import TableParsing.Proofs.Lr.Items
import TableParsing.Proofs.Lr.First
import TableParsing.Proofs.Lr.Closure
import TableParsing.Proofs.Lr.Transitions
import TableParsing.Proofs.Lr.Keys
import TableParsing.Proofs.Lr.Collection
import TableParsing.Proofs.Table.Packed
import TableParsing.Proofs.Table.Goto
import TableParsing.Proofs.Table.Cells
import TableParsing.Proofs.Table.Parser
import TableParsing.Proofs.Parser.Mending
import TableParsing.Proofs.Parser.Steps
import TableParsing.Proofs.Parser.Stack
import TableParsing.Proofs.Parser.Soundness
import TableParsing.Proofs.Parser.Completeness
import TableParsing.Proofs.Table.Agreement
import TableParsing.Proofs.CharSet.Range
import TableParsing.Proofs.CharSet.Basic
import TableParsing.Proofs.Grammar.Terminals
import TableParsing.Proofs.Nfa.Walk
import TableParsing.Proofs.Pattern.Algebra
import TableParsing.Proofs.Nfa.Passage
import TableParsing.Proofs.Nfa.Fragment
import TableParsing.Proofs.Nfa.Operations
import TableParsing.Proofs.Sorting
import TableParsing.Proofs.Nfa.Simulation
import TableParsing.Proofs.Nfa.Renumbering
import TableParsing.Proofs.Nfa.Repetition
import TableParsing.Proofs.Nfa.Thompson
import TableParsing.Proofs.Pattern.Phrase
import TableParsing.Proofs.Pattern.Recognition
import TableParsing.Proofs.Lexer.Literal
import TableParsing.Proofs.Dfa.Blocks
import TableParsing.Proofs.CharSet.Elementary
import TableParsing.Proofs.Bisection
import TableParsing.Proofs.Dfa.Lookup
import TableParsing.Proofs.Lexer.Matcher
import TableParsing.Proofs.Table.Transition
import TableParsing.Proofs.Dfa.Minimal
import TableParsing.Proofs.Pattern.Labels
import TableParsing.Proofs.Nfa.Labels
import TableParsing.Proofs.Dfa.Subset
import TableParsing.Proofs.Nfa.Liveness
import TableParsing.Proofs.Nfa.Merge
import TableParsing.Proofs.Nfa.Ranked
import TableParsing.Proofs.Lexer.Engines
import TableParsing.Proofs.Lexer.Munch
import TableParsing.Proofs.Lexer.Tokenization
import TableParsing.Proofs.Parser.Correctness
import TableParsing.Proofs.Lr.Granted
import TableParsing.Proofs.Lr.Prefix
import TableParsing.Proofs.Lr.Kernels
import TableParsing.Proofs.Lr.Exactness
import TableParsing.Proofs.Lr.Derivation
import TableParsing.Proofs.Lr.Foresight
import TableParsing.Proofs.Lr.Following
import TableParsing.Proofs.Lr.Reached
import TableParsing.Proofs.Parser.Driver
import TableParsing.Proofs.Lr.Halting
import TableParsing.Proofs.Lr.Sentence
import TableParsing.Proofs.Parser.Along
import TableParsing.Proofs.Parser.Outcome
import TableParsing.Proofs.Lr.Chart
import TableParsing.Proofs.Lr.Merging
import TableParsing.Proofs.Table.Unmerged
import TableParsing.Proofs.Lr.Renumbering
import TableParsing.Proofs.Table.Meeting
import TableParsing.Proofs.Table.Order
import TableParsing.Proofs.Table.Verdicts
import TableParsing.Proofs.Table.Chart
import TableParsing.Proofs.Parser.Recovery
import TableParsing.Proofs.Parser.Canonical
import TableParsing.Proofs.Parser.Termination
import TableParsing.Proofs.Parser.Chronicle
import TableParsing.Proofs.Parser.Attribution
import TableParsing.Proofs.Parser.Discipline
import TableParsing.Proofs.CharSet.Gapped
import TableParsing.Proofs.Dfa.Words
import TableParsing.Proofs.Dfa.Melted
import TableParsing.Proofs.Dfa.Determinization
import TableParsing.Proofs.Dfa.Minimality
import TableParsing.Proofs.Parser.ViablePrefix
import TableParsing.Proofs.Lr.Listing
import TableParsing.Proofs.Table.Reordering
import TableParsing.Proofs.Table.Policy
import TableParsing.Proofs.Parser.Diagnosis
import TableParsing.Proofs.Parser.Expectation
import TableParsing.Proofs.Operators.Climbing
import TableParsing.Proofs.Operators.Automaton
import TableParsing.Proofs.Operators.Table
import TableParsing.Proofs.Operators.Drafts
import TableParsing.Proofs.Operators.Parsing
import TableParsing.Proofs.CharSet.Partition
import TableParsing.Proofs.CharSet.Search
import TableParsing.Proofs.CharSet.Registers
import TableParsing.Proofs.Pattern.Class
import TableParsing.Proofs.Grammar.Lexer
import TableParsing.Proofs.Lr.Checked
import TableParsing.Proofs.Table.Checked
import TableParsing.Proofs.Grammar.Validated
import TableParsing.Proofs.Loop
import TableParsing.Proofs.Lr.Rewriting
import TableParsing.Proofs.Lr.Termination
import TableParsing.Proofs.Nfa.Spanning
import TableParsing.Proofs.Nfa.Size
import TableParsing.Proofs.Lexer.Position
import TableParsing.Proofs.Lr.Generated
import TableParsing.Proofs.CharSet.Queries
import TableParsing.Proofs.Lr.WordVector
import TableParsing.Proofs.Lr.Making
import TableParsing.Proofs.Nfa.Closure
import TableParsing.Proofs.Parser.Repair
