import TableParsing.Proofs.Nfa.Walk

/-! # What operations stand for

The operations of a pattern can be carried out on a stack of anything that has characters, sums, products and
iteration: such a thing is a `PatternAlgebra`.  **The languages are the algebra that says what a pattern is
meant to be** (`PatternAlgebra.languages`).

An operation is at the core if it never ends a repetition early nor passes its operand by.  Counting is at
the core when it is exact, or has no upper bound. -/

namespace TableParsing

open Computability

/-- What the operations of a pattern make of their operands. -/
structure PatternAlgebra (α : Type) where
  accept : CharSet → α
  concat : α → α → α
  alternate : α → α → α
  star : α → α
  plus : α → α
  optional : α → α
  «repeat» : α → Nat → Option Nat → α

namespace PatternAlgebra

section Evaluation
variable {α : Type} (algebra : PatternAlgebra α)

/-- Carries out one operation; there is no answer if the stack has too few operands for it. -/
def perform? : List α → PatternOp → Option (List α)
  | stack, .accept set => some (algebra.accept set :: stack)
  | b :: a :: stack, .concat => some (algebra.concat a b :: stack)
  | b :: a :: stack, .alternate => some (algebra.alternate a b :: stack)
  | x :: stack, .star => some (algebra.star x :: stack)
  | x :: stack, .plus => some (algebra.plus x :: stack)
  | x :: stack, .optional => some (algebra.optional x :: stack)
  | x :: stack, .repeat min max => some (algebra.repeat x min max :: stack)
  | _, _ => none

/-- What a list of operations stands for, if they leave one thing on the stack. -/
def eval? (ops : List PatternOp) : Option α := do
  match ← ops.foldlM algebra.perform? [] with
  | [x] => some x
  | _ => none

theorem eval?_eq_some_iff {ops : List PatternOp} {x : α} :
    algebra.eval? ops = some x ↔ ops.foldlM algebra.perform? [] = some [x] := by
  rw [eval?]
  cases ops.foldlM algebra.perform? [] with
  | none => exact ⟨nofun, nofun⟩
  | some stack =>
    match stack with
    | [] => exact ⟨nofun, nofun⟩
    | [y] => exact ⟨fun h => by cases h; rfl, fun h => by cases h; rfl⟩
    | _ :: _ :: _ => exact ⟨nofun, nofun⟩

end Evaluation

/-- **The languages of patterns.** -/
def languages : PatternAlgebra (Language Char) where
  accept set := set.words
  concat a b := a * b
  alternate a b := a + b
  star x := x∗
  plus x := x * x∗
  optional x := x + 1
  «repeat» x min max := {word | ∃ k, min ≤ k ∧ (∀ bound ∈ max, k ≤ bound) ∧ word ∈ x ^ k}

end PatternAlgebra

/-- The operations at the core. -/
def PatternOp.IsCore : PatternOp → Prop
  | .optional => False
  | .repeat min (some max) => max = min ∧ 1 ≤ min
  | _ => True

end TableParsing
