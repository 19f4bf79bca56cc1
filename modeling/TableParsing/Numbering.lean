import Std.Data.HashMap

/-! # Numberings

A `Numbering` gives out the numbers 0, 1, 2 and so on to elements in the order in which they arrive.  An
element that has a number keeps it.

The elements stand in an array, each at the place of its number, and a hash table finds the number of an
element.  **The two say the same**: `number? a = some i` means that `a` is the element at place `i`.  So no
element has two numbers. -/

namespace TableParsing

/-- Different elements with the numbers 0, 1, 2 and so on. -/
structure Numbering (α : Type) [DecidableEq α] [Hashable α] where
  elements : Array α
  numbers : Std.HashMap α Nat
  numbers_eq_some_iff : ∀ (a : α) (i : Nat), numbers[a]? = some i ↔ elements[i]? = some a

namespace Numbering
variable {α : Type} [DecidableEq α] [Hashable α]

/-- The numbering without elements. -/
def empty : Numbering α where
  elements := #[]
  numbers := ∅
  numbers_eq_some_iff := by simp

instance : Inhabited (Numbering α) := ⟨empty⟩

variable (numbering : Numbering α)

/-- The number of an element. -/
def number? (a : α) : Option Nat := numbering.numbers[a]?

/-- The number of an element; one that has none is given the number that is free next. -/
def numberOf (a : α) : Nat := (numbering.number? a).getD numbering.elements.size

/-- The number of elements. -/
def size : Nat := numbering.elements.size

/-- The elements in the order of their numbers. -/
def toList : List α := numbering.elements.toList

theorem number?_eq_some_iff {a : α} {i : Nat} :
    numbering.number? a = some i ↔ numbering.elements[i]? = some a :=
  numbering.numbers_eq_some_iff a i

/-- What the hash table says once `a` has been given the next number. -/
theorem numbers_insert_eq_some_iff {a : α} (new : numbering.numbers[a]? = none) (b : α) (i : Nat) :
    (numbering.numbers.insert a numbering.elements.size)[b]? = some i ↔
      (numbering.elements.push a)[i]? = some b := by
  rw [Std.HashMap.getElem?_insert, Array.getElem?_push]
  by_cases hab : a = b
  · subst hab
    by_cases hi : i = numbering.elements.size
    · simp [hi]
    · have absent : numbering.elements[i]? ≠ some a := fun h => by
        rw [(numbering.numbers_eq_some_iff a i).mpr h] at new
        cases new
      simp [hi, absent, Ne.symm hi]
  · by_cases hi : i = numbering.elements.size
    · subst hi
      have absent : numbering.numbers[b]? ≠ some numbering.elements.size := fun h => by
        have := (numbering.numbers_eq_some_iff b _).mp h
        simp at this
      simp [hab, absent]
    · simp [hab, hi, numbering.numbers_eq_some_iff b i]

/-- The numbering in which `a` has a number, the next one if it had none. -/
def insert (a : α) : Numbering α :=
  match new : numbering.numbers[a]? with
  | some _ => numbering
  | none =>
    let next := numbering.elements.size
    { elements := numbering.elements.push a
      numbers := numbering.numbers.insert a next
      numbers_eq_some_iff := numbering.numbers_insert_eq_some_iff new }

/-- The numbering in which all of `as` have numbers; new ones are given out in the order of the list. -/
def insertAll (as : List α) : Numbering α := as.foldl insert numbering

/-- The elements of a list, numbered in the order in which they first stand there. -/
def ofList (as : List α) : Numbering α := empty.insertAll as

theorem elements_insert (a : α) :
    (numbering.insert a).elements =
      if (numbering.number? a).isSome then numbering.elements else numbering.elements.push a := by
  rw [insert, number?]
  split <;> rename_i h <;> simp [h]

end Numbering
end TableParsing
