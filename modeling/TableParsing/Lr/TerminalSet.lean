/-! # Sets of terminals

Lookaheads are sets of terminal numbers.  A `TerminalSet` is a number whose binary digits say which
terminals belong to it, with the count of 64-digit words set aside for it.  The words only grow; they are
made for as many terminals as a grammar has, so **all sets of one grammar have the same number of words**
and are equal when they have the same members.

The members are listed by halving the number until a half is empty or a single digit (`digitsFrom`), so
that a large member of a small set is found without trying all numbers below it. -/

namespace TableParsing

/-- A set of terminal numbers. -/
structure TerminalSet where
  /-- The number of words. -/
  words : Nat
  /-- The members as binary digits. -/
  bits : Nat
deriving DecidableEq, Hashable, Repr

namespace TerminalSet

/-- The number of digits in a word. -/
def wordSize : Nat := 64

/-- The set without members, with words for `terminals` terminals. -/
def ofSize (terminals : Nat) : TerminalSet := ⟨(terminals + wordSize - 1) / wordSize, 0⟩

instance : Inhabited TerminalSet := ⟨ofSize 0⟩

variable (set other : TerminalSet)

/-- Whether `t` is a member. -/
def contains (t : Nat) : Bool := set.bits.testBit t

/-- The set with `t`, and with the word that `t` belongs to. -/
def insert (t : Nat) : TerminalSet :=
  ⟨max set.words (t / wordSize + 1), set.bits ||| (1 <<< t)⟩

/-- The members of either set. -/
def union : TerminalSet := ⟨max set.words other.words, set.bits ||| other.bits⟩

/-- Whether `other` has no member that the set lacks. -/
def includes : Bool := set.bits ||| other.bits == set.bits

/-- Whether the set has no member. -/
def isEmpty : Bool := set.bits == 0

/-- The places of the digits 1 among the lowest `1 <<< k` digits of `bits`, the lowest counted as `base`. -/
def digitsFrom : (k base bits : Nat) → List Nat
  | 0, base, bits => if bits.testBit 0 then [base] else []
  | k + 1, base, bits =>
    if bits = 0 then []
    else digitsFrom k base (bits &&& ((1 <<< (1 <<< k)) - 1)) ++
      digitsFrom k (base + (1 <<< k)) (bits >>> (1 <<< k))

theorem mem_digitsFrom {t k base bits : Nat} :
    t ∈ digitsFrom k base bits ↔ base ≤ t ∧ t < base + (1 <<< k) ∧ bits.testBit (t - base) := by
  rw [Nat.one_shiftLeft]
  induction k generalizing base bits with
  | zero =>
    rw [digitsFrom]
    by_cases ht : t = base
    · subst ht; simp
    · have absent : t ∉ if bits.testBit 0 then [base] else [] := by split <;> simp [ht]
      have far : ¬(base ≤ t ∧ t < base + 2 ^ 0) := by rw [Nat.pow_zero]; omega
      exact iff_of_false absent fun h => far ⟨h.1, h.2.1⟩
  | succ k ih =>
    rw [digitsFrom]
    split
    · simp_all
    · simp only [Nat.one_shiftLeft]
      rw [List.mem_append, ih, ih, Nat.testBit_and, Nat.testBit_two_pow_sub_one, Nat.testBit_shiftRight]
      have hp : 2 ^ (k + 1) = 2 ^ k + 2 ^ k := by rw [Nat.pow_succ]; omega
      by_cases hlow : t < base + 2 ^ k
      · have : ¬base + 2 ^ k ≤ t := by omega
        constructor
        · rintro (⟨h1, h2, h3⟩ | ⟨h1, _⟩)
          · simp only [Bool.and_eq_true] at h3
            exact ⟨h1, by omega, h3.1⟩
          · omega
        · rintro ⟨h1, h2, h3⟩
          refine .inl ⟨h1, hlow, ?_⟩
          simp only [h3, Bool.true_and, decide_eq_true_eq]
          omega
      · have hadd (h : base + 2 ^ k ≤ t) : 2 ^ k + (t - (base + 2 ^ k)) = t - base := by
          rw [Nat.sub_add_eq, Nat.add_sub_cancel' (Nat.le_sub_of_add_le' h)]
        constructor
        · rintro (⟨_, h2, _⟩ | ⟨h1, h2, h3⟩)
          · omega
          · rw [hadd h1] at h3
            exact ⟨by omega, by omega, h3⟩
        · rintro ⟨h1, h2, h3⟩
          have hle : base + 2 ^ k ≤ t := by omega
          exact .inr ⟨hle, by omega, by rw [hadd hle]; exact h3⟩

/-- The members in ascending order. -/
def toList : List Nat := digitsFrom (Nat.log2 (Nat.log2 set.bits + 1) + 1) 0 set.bits

theorem mem_toList {t : Nat} : t ∈ set.toList ↔ set.contains t := by
  rw [toList, mem_digitsFrom, contains, Nat.one_shiftLeft]
  constructor
  · exact fun h => h.2.2
  · intro h
    have small : set.bits < 2 ^ (Nat.log2 set.bits + 1) := Nat.lt_log2_self
    have width : Nat.log2 set.bits + 1 < 2 ^ (Nat.log2 (Nat.log2 set.bits + 1) + 1) := Nat.lt_log2_self
    have place : 2 ^ t ≤ set.bits := Nat.ge_two_pow_of_testBit h
    have : t < Nat.log2 set.bits + 1 :=
      (Nat.pow_lt_pow_iff_right (by decide)).mp (Nat.lt_of_le_of_lt place small)
    exact ⟨Nat.zero_le _, by omega, h⟩

/-- The number of members. -/
def size : Nat := set.toList.length

end TerminalSet
end TableParsing
