import TableParsing.Bisection

/-! # Bisection finds the end of the front part

When an element that passes has only elements that pass in front of it, **the elements below the answer are those that
pass**. -/

namespace TableParsing

/-- The last position that is looked at is the last one that passes, if any does. -/
theorem narrow_spec {passes : Nat → Bool} (front : ∀ i j, i ≤ j → passes j = true → passes i = true) (base : Nat)
    {size : Nat} (pos : 0 < size) :
    (narrow passes base size = base ∨ passes (narrow passes base size) = true) ∧
      ∀ i, narrow passes base size < i → i < base + size → passes i = false := by
  induction size using Nat.strongRecOn generalizing base with
  | ind size ih =>
    rw [narrow]
    by_cases le : size ≤ 1
    · rw [if_pos le]
      exact ⟨.inl rfl, fun i hi lt => by omega⟩
    · rw [if_neg le]
      by_cases middle : passes (base + size / 2) = true
      · -- everything up to the middle passes
        obtain ⟨last, behind⟩ := ih (size - size / 2) (by omega) (base + size / 2) (by omega)
        simp only [if_pos middle]
        refine ⟨last.elim (fun h => .inr ?_) .inr, fun i hi lt => behind i hi (by omega)⟩
        rw [h]
        exact middle
      · obtain ⟨last, behind⟩ := ih (size - size / 2) (by omega) base (by omega)
        simp only [if_neg middle]
        refine ⟨last, fun i hi lt => ?_⟩
        by_cases h : i < base + (size - size / 2)
        · exact behind i hi h
        · exact Bool.eq_false_iff.mpr fun pass => middle (front _ _ (by omega) pass)

/-- **Bisection counts the elements that pass.** -/
theorem lt_bisect_iff {α : Type} {passes : α → Bool} {xs : Array α}
    (front : xs.toList.Pairwise fun a b => passes b = true → passes a = true) (i : Nat) :
    i < bisect passes xs ↔ xs[i]?.any passes = true := by
  have test : ∀ i j : Nat, i ≤ j → xs[j]?.any passes = true → xs[i]?.any passes = true := by
    intro i j le pass
    obtain ⟨b, hb, pass⟩ := (Option.any_eq_true _ _).mp pass
    obtain ⟨hj, rfl⟩ := Array.getElem?_eq_some_iff.mp hb
    rcases Nat.lt_or_eq_of_le le with lt | rfl
    · have hi : i < xs.size := by omega
      rw [Array.getElem?_eq_getElem hi]
      exact List.pairwise_iff_getElem.mp front i j hi hj lt pass
    · rw [hb]
      exact pass
  rw [bisect]
  by_cases empty : xs.isEmpty = true
  · have none : xs[i]? = none := Array.getElem?_eq_none (by simp [Array.isEmpty_iff.mp empty])
    rw [if_pos empty, none]
    simp
  · rw [if_neg empty]
    have pos : 0 < xs.size := Nat.pos_of_ne_zero fun h => empty (Array.isEmpty_iff_size_eq_zero.mpr h)
    obtain ⟨last, behind⟩ := narrow_spec test 0 pos
    dsimp only
    generalize narrow (fun i => xs[i]?.any passes) 0 xs.size = k at last behind ⊢
    have fails : k < i → xs[i]?.any passes = false := by
      intro lt
      by_cases h : i < xs.size
      · exact behind i lt (by omega)
      · rw [Array.getElem?_eq_none (Nat.le_of_not_lt h)]
        rfl
    split
    · rename_i pass
      constructor
      · intro lt
        exact test i k (by omega) pass
      · intro pass
        refine Nat.lt_succ_of_le (Nat.le_of_not_lt fun lt => ?_)
        rw [fails lt] at pass
        cases pass
    · rename_i fail
      obtain rfl := last.resolve_right fail
      refine iff_of_false (Nat.not_lt_zero i) fun pass => fail (test 0 i (Nat.zero_le i) pass)

end TableParsing
