import TableParsing.Lr.First
import TableParsing.Lr.Item

/-! # Closures and transitions

The grammar gets one more production, numbered behind all others, that derives the start symbol and has no
result (`augmented`).

**Closure.**  An item with the dot in front of a non-terminal asks for the productions of that
non-terminal, with what may follow it there.  New items, and items whose lookahead has grown, are visited
in turn, the latest first, until nothing is left to visit.  Beyond the items of the kernel there is a visit
only for a new item or a grown lookahead, which bounds the number of visits.

Most visits ask for what a non-terminal was asked for before.  So an `Expansion` keeps, for each
non-terminal, what its productions were inserted with: asking for no more than that brings nothing new.

**Transitions.**  The items with the dot in front of a symbol, with the dot moved behind it, are the kernel
of the state that the symbol leads to. -/

namespace TableParsing

/-- A closure in the making. -/
structure Expansion where
  items : ItemSet
  /-- The positions of the items to be visited, the next one first. -/
  stack : List Nat
  /-- For each non-terminal the terminals that all its productions were inserted with. -/
  asked : Array (Option TerminalSet)

namespace Expansion

/-- Inserts the beginning of a production with its lookahead, and puts it on the stack if that brings
something new. -/
def insert (lookahead : TerminalSet) : Expansion → (production : Nat) → Expansion
  | ⟨items, stack, asked⟩, production =>
    let core : Core := ⟨production, 0⟩
    if items.covers core lookahead then ⟨items, stack, asked⟩
    else
      let items := items.insert core lookahead
      ⟨items, (items.position? core).toList ++ stack, asked⟩

/-- Whether the productions of the non-terminal `n` were inserted with all of `lookahead` before. -/
def wasAsked (run : Expansion) (n : Nat) (lookahead : TerminalSet) : Bool :=
  (run.asked.getD n none).any (·.includes lookahead)

/-- Notes that the productions of `n` are inserted with `lookahead`. -/
def note : Expansion → (n : Nat) → (lookahead : TerminalSet) → Expansion
  | ⟨items, stack, asked⟩, n, lookahead =>
    ⟨items, stack, asked.modify n fun known => some ((known.getD ⟨0, 0⟩).union lookahead)⟩

end Expansion

namespace Cfg
variable (cfg : Cfg)

/-- The number of the production that derives the start symbol. -/
def augmented : Nat := cfg.rules.size

/-- The right-hand side of a production. -/
def symbolsOf (production : Nat) : List Symbol :=
  match cfg.rules[production]? with
  | some rule => rule.symbols
  | none => [.nonTerminal cfg.start]

/-- The non-terminal that a production derives; the added production derives none. -/
def resultOf? (production : Nat) : Option Nat := (cfg.rules[production]?).map (·.result)

/-- The symbol behind the dot. -/
def nextSymbol? (core : Core) : Option Symbol := (cfg.symbolsOf core.production)[core.dot]?

/-- The productions of a non-terminal, in order. -/
def productionsOf (n : Nat) : List Nat :=
  (List.range cfg.rules.size).filter fun p => cfg.resultOf? p = some n

/-- Inserts the productions of the non-terminal `n` with `lookahead`. -/
def ask (run : Expansion) (n : Nat) (lookahead : TerminalSet) : Expansion :=
  if run.wasAsked n lookahead then run
  else (cfg.productionsOf n).foldl (Expansion.insert lookahead) (run.note n lookahead)

/-- What an item asks for: the non-terminal behind its dot, with the terminals that may follow it. -/
def request? (known : FirstSets) (item : Item) : Option (Nat × TerminalSet) :=
  match (cfg.symbolsOf item.core.production).drop item.core.dot with
  | .nonTerminal n :: rest =>
    let (first, nullable) := cfg.firstOf known rest
    some (n, if nullable then first.union item.lookahead else first)
  | _ => none

/-- Visits the item at a position. -/
def visit (known : FirstSets) (position : Nat) (run : Expansion) : Expansion :=
  match (run.items.item? position).bind (cfg.request? known) with
  | some (n, lookahead) => cfg.ask run n lookahead
  | none => run

/-- Visits the items whose positions are on the stack, and those that come up, at most the given number of
them. -/
def visitAll (known : FirstSets) : (visits : Nat) → Expansion → ItemSet
  | 0, run => run.items
  | visits + 1, run =>
    match run.stack with
    | [] => run.items
    | position :: stack => visitAll known visits (cfg.visit known position { run with stack })

/-- The kernel with all items that it asks for. -/
def closure (known : FirstSets) (kernel : ItemSet) : ItemSet :=
  cfg.visitAll known (kernel.size + cfg.rules.size * (cfg.terminalCount + 1))
    ⟨kernel, (List.range kernel.size).reverse, Array.replicate cfg.nonTerminalCount none⟩

/-- The list with an item for `core` in the kernel behind `symbol`. -/
def addToKernel (symbol : Symbol) (core : Core) (lookahead : TerminalSet) :
    List (Symbol × ItemSet) → List (Symbol × ItemSet)
  | [] => [(symbol, ItemSet.empty.insert core lookahead)]
  | (s, kernel) :: rest =>
    if s = symbol then (s, kernel.insert core lookahead) :: rest
    else (s, kernel) :: addToKernel symbol core lookahead rest

/-- The symbols that lead on from a set of items, in the order in which they first stand behind a dot, with
the kernels that they lead to. -/
def transitions (set : ItemSet) : List (Symbol × ItemSet) :=
  set.items.foldl (fun transitions item =>
    match cfg.nextSymbol? item.core with
    | some symbol => addToKernel symbol item.core.advance item.lookahead transitions
    | none => transitions) []

end Cfg
end TableParsing
