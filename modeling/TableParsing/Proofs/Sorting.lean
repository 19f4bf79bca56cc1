import Mathlib.Data.List.Sort

/-! # Sorted lists without repetition

Leaving out repetitions keeps the members of a list, and a sorted list ascends strictly after that. -/

namespace TableParsing

section Reps
variable {α : Type} [BEq α] [LawfulBEq α] {a b x : α} {xs : List α}

omit [LawfulBEq α] in
theorem eraseReps_loop (a : α) (xs acc : List α) :
    List.eraseRepsBy.loop (· == ·) a xs acc = acc.reverse ++ (a :: xs).eraseReps := by
  rw [List.eraseReps, List.eraseRepsBy]
  induction xs generalizing a acc with
  | nil => simp [List.eraseRepsBy.loop]
  | cons b xs ih =>
    rw [List.eraseRepsBy.loop, List.eraseRepsBy.loop]
    split
    · exact ih a acc
    · rw [ih b (a :: acc), ih b [a]]
      simp

theorem eraseReps_cons_self : (a :: a :: xs).eraseReps = (a :: xs).eraseReps := by
  rw [List.eraseReps, List.eraseRepsBy, List.eraseRepsBy.loop, beq_self_eq_true]
  exact eraseReps_loop a xs []

theorem eraseReps_cons_of_ne (h : a ≠ b) : (a :: b :: xs).eraseReps = a :: (b :: xs).eraseReps := by
  rw [List.eraseReps, List.eraseRepsBy, List.eraseRepsBy.loop, beq_false_of_ne h]
  exact eraseReps_loop b xs [a]

theorem mem_eraseReps : x ∈ xs.eraseReps ↔ x ∈ xs := by
  cases xs with
  | nil => rfl
  | cons a xs =>
    induction xs generalizing a with
    | nil => rfl
    | cons b xs ih =>
      by_cases h : a = b
      · rw [h, eraseReps_cons_self, ih, List.mem_cons, List.mem_cons, List.mem_cons, or_self_left]
      · rw [eraseReps_cons_of_ne h, List.mem_cons, ih, List.mem_cons (a := x) (b := a)]

end Reps

/-- A sorted list ascends strictly without its repetitions. -/
theorem pairwise_lt_eraseReps {α : Type} [LinearOrder α] [BEq α] [LawfulBEq α] {xs : List α}
    (h : xs.Pairwise (· ≤ ·)) : xs.eraseReps.Pairwise (· < ·) := by
  cases xs with
  | nil => exact .nil
  | cons a xs =>
    induction xs generalizing a with
    | nil => exact List.pairwise_singleton ..
    | cons b xs ih =>
      obtain ⟨first, h⟩ := List.pairwise_cons.mp h
      by_cases hab : a = b
      · rw [hab, eraseReps_cons_self]
        exact ih b h
      · rw [eraseReps_cons_of_ne hab]
        refine List.pairwise_cons.mpr ⟨fun x hx => ?_, ih b h⟩
        have lt : a < b := lt_of_le_of_ne (first b List.mem_cons_self) hab
        rcases List.mem_cons.mp (mem_eraseReps.mp hx) with rfl | hx
        · exact lt
        · exact lt_of_lt_of_le lt ((List.pairwise_cons.mp h).1 x hx)

/-- **The members of a list, sorted and each once.** -/
theorem pairwise_lt_sorted {α : Type} [LinearOrder α] [BEq α] [LawfulBEq α] (xs : List α) :
    (xs.mergeSort (· ≤ ·)).eraseReps.Pairwise (· < ·) :=
  pairwise_lt_eraseReps (List.pairwise_mergeSort' (· ≤ ·) xs)

theorem mem_sorted {α : Type} [LinearOrder α] [BEq α] [LawfulBEq α] {xs : List α} {x : α} :
    x ∈ (xs.mergeSort (· ≤ ·)).eraseReps ↔ x ∈ xs := by
  rw [mem_eraseReps, List.mem_mergeSort]

end TableParsing
