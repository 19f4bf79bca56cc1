/-! # Loops

A loop makes one pass after another, as long as there is one to make: `next` makes a pass, and has no answer where the
loop ends.  **A loop ends if every pass takes something from a measure**, and it makes no more passes than the measure
has to give (`exists_ends`).  A function that makes no more than a given number of passes comes to where the loop ends
if they are enough (`Ends.run_eq`). -/

namespace TableParsing

variable {α β : Type} {next : α → Option α} {n : Nat} {a b : α}

/-- Whether a number of passes lead from one place to another. -/
inductive Passes (next : α → Option α) : Nat → α → α → Prop
  | none (a : α) : Passes next 0 a a
  | pass {n : Nat} {a b c : α} (here : next a = some b) (rest : Passes next n b c) : Passes next (n + 1) a c

/-- Whether a loop ends at a place, after a number of passes. -/
structure Ends (next : α → Option α) (n : Nat) (a b : α) : Prop where
  passes : Passes next n a b
  last : next b = none

/-- What every pass keeps holds wherever passes lead. -/
theorem Passes.keeps {Inv : α → Prop} (pass : ∀ a b, Inv a → next a = some b → Inv b) (h : Passes next n a b)
    (inv : Inv a) : Inv b := by
  induction h with
  | none a => exact inv
  | pass here rest ih => exact ih (pass _ _ inv here)

/-- **A loop ends if every pass takes something from a measure.** -/
theorem exists_ends {Inv : α → Prop} (measure : α → Nat)
    (pass : ∀ a b, Inv a → next a = some b → Inv b ∧ measure b < measure a) (inv : Inv a) :
    ∃ n b, n ≤ measure a ∧ Ends next n a b := by
  induction left : measure a using Nat.strongRecOn generalizing a with
  | ind m ih =>
    cases here : next a with
    | none => exact ⟨0, a, Nat.zero_le m, .none a, here⟩
    | some b =>
      obtain ⟨inv', less⟩ := pass a b inv here
      obtain ⟨n, c, enough, ends⟩ := ih (measure b) (left ▸ less) inv' rfl
      exact ⟨n + 1, c, by omega, .pass here ends.passes, ends.last⟩

/-- What makes the passes of a loop, and no more than it may, comes to the end of the loop if these are enough. -/
theorem Ends.run_eq (ends : Ends next n a b) (run : Nat → α → β) (result : α → β)
    (stop : ∀ bound a, next a = none → run bound a = result a)
    (go : ∀ bound a b, next a = some b → run (bound + 1) a = run bound b) {bound : Nat} (enough : n ≤ bound) :
    run bound a = result b := by
  obtain ⟨passes, last⟩ := ends
  induction passes generalizing bound with
  | none a => exact stop bound a last
  | pass here rest ih =>
    obtain ⟨bound, rfl⟩ := Nat.exists_eq_add_of_le' enough
    rw [← Nat.add_assoc, go _ _ _ here]
    exact ih (Nat.le_add_left _ _) last

end TableParsing
