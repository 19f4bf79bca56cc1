import TableParsing.Lr.Closure

/-! # The collection of states

A state of the automaton is a kernel with its closure.  The collection begins with the state for the added
production and grows by following the transitions of the states in turn.  What tells states apart is the
**key** of their kernel, by which a state is found; the number of its key is the number of a state.

**Merging cores.**  A kernel may lead to a state that is there already.  If states with the same cores are
merged, the kernel can bring lookaheads that the state did not have; then its closure is made anew, and
its transitions are followed once more, so that they hand the lookaheads on.  Without merging, kernels are
the same only if their lookaheads are, and every state is followed once.

**Number of visits.**  Kernels are sets of pairs of a core and a terminal, with a core alone for an empty
lookahead.  A state is visited once when it is new, and once more at most for every such pair that its
kernel gains. -/

namespace TableParsing

/-- A state of the automaton. -/
structure Collection.State where
  kernel : ItemSet
  /-- The closure of the kernel. -/
  items : ItemSet
  /-- The states that the symbols lead to. -/
  transitions : List (Symbol × Nat)
deriving Inhabited

/-- What tells states apart: the sorted cores, or the sorted items. -/
inductive Collection.Key where
  | cores (cores : List Core)
  | items (items : List Item)
deriving DecidableEq, Hashable

/-- The key of the state with a kernel. -/
def Collection.Key.ofKernel (mergeCores : Bool) (kernel : ItemSet) : Collection.Key :=
  if mergeCores then .cores kernel.sortedCores else .items kernel.sortedItems

/-- The states found so far and those whose transitions are still to be followed. -/
structure Collection where
  states : Array Collection.State
  /-- The keys of the states, by number. -/
  keys : Numbering Collection.Key
  queue : List Nat

/-- The transitions with the one on `symbol` leading to `target`. -/
def setTransition (symbol : Symbol) (target : Nat) : List (Symbol × Nat) → List (Symbol × Nat)
  | [] => [(symbol, target)]
  | (s, old) :: rest =>
    if s = symbol then (s, target) :: rest else (s, old) :: setTransition symbol target rest

namespace Collection
variable (cfg : Cfg) (known : FirstSets)

/-- The state of a kernel. -/
def stateOf (kernel : ItemSet) : Collection.State := ⟨kernel, cfg.closure known kernel, []⟩

/-- The collection with a transition between two of its states. -/
def connect (source : Nat) (symbol : Symbol) (target : Nat) : Collection → Collection
  | ⟨states, keys, queue⟩ =>
    let connected := states.modify source fun ⟨kernel, items, transitions⟩ =>
      ⟨kernel, items, setTransition symbol target transitions⟩
    ⟨connected, keys, queue⟩

/-- The collection with a further state, whose transitions are to be followed. -/
def push (key : Collection.Key) (kernel : ItemSet) : Collection → Collection
  | ⟨states, keys, queue⟩ =>
    let number := states.size
    ⟨states.push (stateOf cfg known kernel), keys.insert key, queue ++ [number]⟩

/-- The collection with the items of `kernel` added to the kernel of the state `target`, which is to be
followed again if that brings anything new. -/
def absorb (target : Nat) (kernel : ItemSet) : Collection → Collection
  | ⟨states, keys, queue⟩ =>
    let old := (states.getD target default).kernel
    if kernel.items.all fun item => old.covers item.core item.lookahead then ⟨states, keys, queue⟩
    else
      let merged := kernel.items.foldl (fun set item => set.insert item.core item.lookahead) old
      let states := states.modify target fun state =>
        { state with kernel := merged, items := cfg.closure known merged }
      ⟨states, keys, if target ∈ queue then queue else queue ++ [target]⟩

/-- Follows the transition from the state `source` on `symbol` to the state of `kernel`. -/
def follow (mergeCores : Bool) (source : Nat) (collection : Collection)
    (transition : Symbol × ItemSet) : Collection :=
  let (symbol, kernel) := transition
  let key := Collection.Key.ofKernel mergeCores kernel
  match collection.keys.number? key with
  | some target => (collection.absorb cfg known target kernel).connect source symbol target
  | none =>
    let target := collection.states.size
    (collection.push cfg known key kernel).connect source symbol target

/-- Follows the transitions of the states in the queue, at most the given number of them. -/
def grow (mergeCores : Bool) : (visits : Nat) → Collection → Collection
  | 0, collection => collection
  | visits + 1, collection =>
    match collection.queue with
    | [] => collection
    | source :: queue =>
      let items := (collection.states.getD source default).items
      grow mergeCores visits <|
        (cfg.transitions items).foldl (follow cfg known mergeCores source) { collection with queue }

end Collection

namespace Cfg
variable (cfg : Cfg)

/-- The kernel of the first state: the start symbol is to come, and the end of the input behind it. -/
def startKernel : ItemSet :=
  ItemSet.empty.insert ⟨cfg.augmented, 0⟩ ((TerminalSet.ofSize cfg.terminalCount).insert endTerminal)

/-- The number of places for a dot, those in the added production included. -/
def coreCount : Nat := cfg.rules.toList.foldr (fun rule places => rule.symbols.length + 1 + places) 2

/-- A bound for the number of visits: there are `coreCount * (terminalCount + 1)` pairs. -/
def visitBound : Nat :=
  let pairs := cfg.coreCount * (cfg.terminalCount + 1)
  Nat.pow 2 pairs * (pairs + 1)

/-- The states of the grammar's automaton. -/
def collection (mergeCores : Bool) : List Collection.State :=
  let known := cfg.firstSets
  let start := cfg.startKernel
  let key := Collection.Key.ofKernel mergeCores start
  let first : Collection := ⟨#[Collection.stateOf cfg known start], .ofList [key], [0]⟩
  (first.grow cfg known mergeCores cfg.visitBound).states.toList

end Cfg
end TableParsing
