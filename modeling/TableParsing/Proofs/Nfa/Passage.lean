import TableParsing.Proofs.Pattern.Algebra

/-! # Passages

What a fragment contributes to an automaton is not only its language.  Some operations add an edge that
leaves its start for its end, and **whoever comes back to the start may take that edge again**.  So two
languages are kept of a fragment, and they determine those of every fragment that is made of it.

The languages at the core do not depend on the way back (`map_through_perform?`). -/

namespace TableParsing

open Computability

/-- The languages of a fragment. -/
structure Passage where
  /-- The words that lead from the start to the end. -/
  through : Language Char
  /-- The words that lead from the start back to it. -/
  back : Language Char

namespace Passage
variable (x : Passage)

/-- The copies in the chain of a bounded repetition. -/
def chainLength (min max : Nat) : Nat := Nat.max max min - 1 + 1

theorem chainLength_of_le {min max : Nat} (hmin : min ≤ max) (hmax : 1 ≤ max) :
    chainLength min max = max := by
  rw [chainLength, Nat.max_eq_max, Nat.max_eq_left hmin]
  omega

/-- From `min` to `max` passes.  The chain may be left in front of every copy but the first `min`, as often
as the start of that copy is reached. -/
def repeatBounded (min max : Nat) : Passage where
  through := {word | word ∈ x.through ^ chainLength min max ∨
    ∃ i, min ≤ i ∧ i < chainLength min max ∧ word ∈ x.through ^ i * x.back}
  back := x.back

/-- A chain that may not be left early. -/
theorem through_repeatBounded_self {x : Passage} {min : Nat} (h : 1 ≤ min) :
    (x.repeatBounded min min).through = x.through ^ min := by
  ext word
  change word ∈ x.through ^ chainLength min min ∨ _ ↔ _
  rw [chainLength_of_le (Nat.le_refl _) h]
  constructor
  · rintro (h | ⟨i, hmin, hmax, _⟩)
    · exact h
    · omega
  · exact .inl

end Passage

namespace PatternAlgebra

/-- The passages of patterns. -/
def passages : PatternAlgebra Passage where
  accept set := ⟨set.words, 1⟩
  concat a b := ⟨a.through * b.through, a.back⟩
  alternate a b := ⟨a.through + b.through, 1⟩
  star x := ⟨x.through∗, 1⟩
  plus x := ⟨x.through * x.through∗, x.through∗ * x.back⟩
  optional x := ⟨x.through + x.back, x.back⟩
  «repeat» x min max :=
    match min, max with
    | min, some max => x.repeatBounded min max
    | 0, none => ⟨x.through∗, 1⟩
    | min, none => ⟨x.through ^ min * x.through∗, x.back⟩

theorem through_repeat_none {x : Passage} {min : Nat} :
    (passages.repeat x min none).through = languages.repeat x.through min none := by
  have counted : x.through ^ min * x.through∗ = languages.repeat x.through min none := by
    ext word
    rw [Language.kstar_eq_iSup_pow, Language.mul_iSup, Language.mem_iSup]
    constructor
    · rintro ⟨k, h⟩
      rw [← pow_add] at h
      exact ⟨min + k, Nat.le_add_right _ _, nofun, h⟩
    · rintro ⟨k, hmin, _, h⟩
      refine ⟨k - min, ?_⟩
      rwa [← pow_add, Nat.add_sub_of_le hmin]
  cases min with
  | zero => rw [← counted, pow_zero, one_mul]; rfl
  | succ min => exact counted

theorem through_repeat_self {x : Passage} {min : Nat} (h : 1 ≤ min) :
    (passages.repeat x min (some min)).through = languages.repeat x.through min (some min) := by
  refine (Passage.through_repeatBounded_self h).trans ?_
  ext word
  constructor
  · intro h
    exact ⟨min, Nat.le_refl _, fun bound hb => by cases hb; exact Nat.le_refl _, h⟩
  · rintro ⟨k, hmin, hmax, h⟩
    rwa [Nat.le_antisymm (hmax min rfl) hmin] at h

/-- **At the core a passage has the language that is meant.** -/
theorem map_through_perform? {stack stack' : List Passage} {op : PatternOp} (core : op.IsCore)
    (h : passages.perform? stack op = some stack') :
    languages.perform? (stack.map (·.through)) op = some (stack'.map (·.through)) := by
  cases op with
  | accept set =>
    cases h
    rfl
  | concat =>
    match stack with
    | b :: a :: stack => cases h; rfl
    | [] | [_] => cases h
  | alternate =>
    match stack with
    | b :: a :: stack => cases h; rfl
    | [] | [_] => cases h
  | star | plus =>
    match stack with
    | x :: stack => cases h; rfl
    | [] => cases h
  | optional => cases core
  | «repeat» min max =>
    match stack with
    | [] => cases h
    | x :: stack =>
      cases h
      cases max with
      | none => exact congrArg (fun L => some (L :: stack.map (·.through))) through_repeat_none.symm
      | some max =>
        obtain ⟨rfl, hmin⟩ := core
        exact congrArg (fun L => some (L :: stack.map (·.through))) (through_repeat_self hmin).symm

theorem map_through_foldlM {ops : List PatternOp} {stack stack' : List Passage}
    (core : ∀ op ∈ ops, op.IsCore) (h : ops.foldlM passages.perform? stack = some stack') :
    ops.foldlM languages.perform? (stack.map (·.through)) = some (stack'.map (·.through)) := by
  induction ops generalizing stack with
  | nil =>
    cases h
    rfl
  | cons op ops ih =>
    rw [List.foldlM_cons] at h ⊢
    obtain ⟨next, hop, hrest⟩ := Option.bind_eq_some_iff.mp h
    rw [map_through_perform? (core op List.mem_cons_self) hop]
    exact ih (fun op hop => core op (List.mem_cons_of_mem _ hop)) hrest

end PatternAlgebra
end TableParsing
