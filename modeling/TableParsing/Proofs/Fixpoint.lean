import TableParsing.Fixpoint

/-! # Knowledge that grows

What a search knows is measured by counting the facts of a fixed list that it has found to hold.  While every
step finds a new fact, **there are no more steps than facts**, so a bound on the facts is a bound on the
rounds, and `stabilize` ends with a fixpoint. -/

namespace TableParsing

variable {α β : Type}

open Classical in
/-- The number of facts of a list that hold. -/
noncomputable def countHolding (facts : List β) (holds : β → Prop) : Nat :=
  facts.countP fun fact => decide (holds fact)

section Count
variable {facts : List β} {holds holds' : β → Prop}

theorem countHolding_le_length : countHolding facts holds ≤ facts.length := List.countP_le_length

theorem countHolding_mono (h : ∀ fact ∈ facts, holds fact → holds' fact) :
    countHolding facts holds ≤ countHolding facts holds' := by
  classical
  exact List.countP_mono_left fun fact hm hf => decide_eq_true (h fact hm (of_decide_eq_true hf))

/-- One more fact is counted. -/
theorem countHolding_lt {new : β} (h : ∀ fact ∈ facts, holds fact → holds' fact) (mem : new ∈ facts)
    (absent : ¬holds new) (present : holds' new) :
    countHolding facts holds < countHolding facts holds' := by
  obtain ⟨front, back, rfl⟩ := List.append_of_mem mem
  have hfront : countHolding front holds ≤ countHolding front holds' :=
    countHolding_mono fun fact hm => h fact (List.mem_append_left _ hm)
  have hback : countHolding back holds ≤ countHolding back holds' :=
    countHolding_mono fun fact hm => h fact (List.mem_append_right _ (List.mem_cons_of_mem _ hm))
  unfold countHolding at hfront hback ⊢
  rw [List.countP_append, List.countP_append, List.countP_cons_of_neg (by simpa using absent),
    List.countP_cons_of_pos (by simpa using present)]
  omega

end Count

/-- What every step keeps holds when the repetition ends. -/
theorem stabilize_keeps [DecidableEq α] {f : α → α} {Inv : α → Prop} (keeps : ∀ a, Inv a → Inv (f a)) (rounds : Nat)
    {a : α} (inv : Inv a) : Inv (stabilize f rounds a) := by
  induction rounds generalizing a with
  | zero => exact inv
  | succ rounds ih =>
    rw [stabilize]
    split
    · exact inv
    · exact ih (keeps a inv)

/-- **Repetition ends with a fixpoint**: every step that changes something increases a measure, which has no
room for more than `rounds` steps. -/
theorem stabilize_fixed [DecidableEq α] {f : α → α} {Inv : α → Prop} {bound : Nat} (measure : α → Nat)
    (keeps : ∀ a, Inv a → Inv (f a)) (grows : ∀ a, Inv a → f a ≠ a → measure a < measure (f a))
    (le : ∀ a, Inv a → measure a ≤ bound) {rounds : Nat} {a : α} (inv : Inv a)
    (room : bound < rounds + measure a) :
    Inv (stabilize f rounds a) ∧ f (stabilize f rounds a) = stabilize f rounds a := by
  induction rounds generalizing a with
  | zero =>
    have := le a inv
    omega
  | succ rounds ih =>
    rw [stabilize]
    split
    · rename_i fixed
      exact ⟨inv, fixed⟩
    · rename_i changed
      have := grows a inv changed
      exact ih (keeps a inv) (by omega)

end TableParsing
