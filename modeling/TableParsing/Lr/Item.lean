import TableParsing.Lr.TerminalSet
import TableParsing.Numbering

/-! # Items

An item is a production with a **dot** in its right-hand side, up to which it has been matched, and the
terminals that may follow the whole of it.  Production and dot are the **core** of the item.  An `ItemSet`
has one item for each core, in the order in which the cores were first inserted; inserting a core again
adds to its lookahead.  The number of a core is the position of its item.

Two kernels make the same state when their keys are equal: the sorted cores where states with the same
cores are merged, and the items sorted by their cores where they are not. -/

namespace TableParsing

/-- A production and a place in its right-hand side. -/
structure Core where
  production : Nat
  dot : Nat
deriving DecidableEq, Hashable, Inhabited, Repr

namespace Core

/-- The core with the dot behind the next symbol. -/
def advance (core : Core) : Core := { core with dot := core.dot + 1 }

/-- Cores in order of production, and of the dot where the production is the same. -/
def le (a b : Core) : Bool :=
  a.production < b.production || (a.production == b.production && a.dot ≤ b.dot)

end Core

/-- A core with the terminals that may follow. -/
structure Item where
  core : Core
  lookahead : TerminalSet
deriving DecidableEq, Hashable, Inhabited, Repr

/-- Items with different cores, in the order of insertion. -/
structure ItemSet where
  cores : Numbering Core
  /-- What may follow, by the number of the core. -/
  lookaheads : Array TerminalSet
  size_lookaheads : lookaheads.size = cores.elements.size

namespace ItemSet

/-- The set without items. -/
def empty : ItemSet := ⟨.empty, #[], rfl⟩

instance : Inhabited ItemSet := ⟨empty⟩

variable (set : ItemSet)

/-- The items in the order of insertion. -/
def items : List Item := List.zipWith Item.mk set.cores.toList set.lookaheads.toList

/-- The number of items. -/
def size : Nat := set.cores.size

/-- The item at a position. -/
def item? (position : Nat) : Option Item := do
  let core ← set.cores.elements[position]?
  let lookahead ← set.lookaheads[position]?
  return ⟨core, lookahead⟩

/-- The position of the item with a core. -/
def position? (core : Core) : Option Nat := set.cores.number? core

/-- The item with a core. -/
def find? (core : Core) : Option Item := (set.position? core).bind set.item?

/-- The set with an item for `core` that may be followed by all of `lookahead`. -/
def insert (core : Core) (lookahead : TerminalSet) : ItemSet :=
  match known : set.position? core with
  | some i =>
    { cores := set.cores
      lookaheads := set.lookaheads.modify i (·.union lookahead)
      size_lookaheads := by rw [Array.size_modify, set.size_lookaheads] }
  | none =>
    { cores := set.cores.insert core
      lookaheads := set.lookaheads.push lookahead
      size_lookaheads := by
        have new : set.cores.number? core = none := known
        rw [Numbering.elements_insert, new, Array.size_push, set.size_lookaheads]
        exact (Array.size_push core).symm }

/-- Whether the set has an item for `core` that may be followed by all of `lookahead`, so that inserting
them brings nothing new. -/
def covers (core : Core) (lookahead : TerminalSet) : Bool :=
  (set.find? core).any (·.lookahead.includes lookahead)

/-- The cores in ascending order. -/
def sortedCores : List Core := set.cores.toList.mergeSort Core.le

/-- The items in ascending order of their cores. -/
def sortedItems : List Item := set.items.mergeSort fun a b => a.core.le b.core

end ItemSet
end TableParsing
