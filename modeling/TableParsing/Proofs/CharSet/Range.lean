import Mathlib.Data.Char
import Mathlib.Tactic.Order
import TableParsing.CharSet.Basic

/-! # Characters of ranges

What the operations on ranges do to the characters in them.  The neighbours of a character are the last one below
it and the first one above it, so a bound that is a neighbour can be put as a strict bound. -/

namespace TableParsing

/-! ## Neighbours -/

section Neighbours
variable {c d e : Char}

theorem predChar?_eq_some_iff : predChar? c = some d ↔ d.ordinal.val + 1 = c.ordinal.val := by
  rw [predChar?]
  split
  · refine iff_of_false nofun ?_
    omega
  · rw [Option.some.injEq, ← Char.ordinal_inj, Char.ordinal_ofOrdinal, Fin.ext_iff]
    simp only
    omega

theorem succ?_eq_some_iff : c.succ? = some d ↔ c.ordinal.val + 1 = d.ordinal.val := by
  rw [Char.succ?_eq, Option.map_eq_some_iff]
  simp only [Fin.addNat?_eq_some_iff]
  constructor
  · rintro ⟨i, ⟨-, hi⟩, rfl⟩
    rw [Char.ordinal_ofOrdinal, hi]
  · intro h
    exact ⟨d.ordinal, ⟨h ▸ d.ordinal.isLt, h.symm⟩, Char.ofOrdinal_ordinal⟩

theorem le_iff_of_predChar? (h : predChar? c = some d) : e ≤ d ↔ e < c := by
  rw [predChar?_eq_some_iff] at h
  rw [Char.le_iff_ordinal_le, Char.lt_iff_ordinal_lt, Fin.le_def, Fin.lt_def]
  omega

theorem le_of_predChar?_eq_none (h : predChar? c = none) : c ≤ e := by
  rw [predChar?, ite_eq_left_iff] at h
  rw [Char.le_iff_ordinal_le, Fin.le_def]
  by_contra lt
  exact absurd (h (by omega)) nofun

theorem le_iff_of_succ? (h : c.succ? = some d) : d ≤ e ↔ c < e := by
  rw [succ?_eq_some_iff] at h
  rw [Char.le_iff_ordinal_le, Char.lt_iff_ordinal_lt, Fin.le_def, Fin.lt_def]
  omega

theorem le_of_succ?_eq_none (h : c.succ? = none) : e ≤ c := by
  rw [Char.succ?_eq, Option.map_eq_none_iff, Fin.addNat?_eq_none_iff] at h
  rw [Char.le_iff_ordinal_le, Fin.le_def]
  have := e.ordinal.isLt
  omega

end Neighbours

namespace CharRange
variable {r s t : CharRange} {c d : Char}

/-! ## Members -/

instance : Membership Char CharRange := ⟨fun r c => r.lo ≤ c ∧ c ≤ r.hi⟩

theorem mem_iff : c ∈ r ↔ r.lo ≤ c ∧ c ≤ r.hi := Iff.rfl

theorem lo_mem (r : CharRange) : r.lo ∈ r := ⟨Char.le_refl _, r.lo_le_hi⟩

theorem hi_mem (r : CharRange) : r.hi ∈ r := ⟨r.lo_le_hi, Char.le_refl _⟩

@[simp]
theorem contains_iff : r.contains c = true ↔ c ∈ r := by
  rw [contains, Bool.and_eq_true, decide_eq_true_iff, decide_eq_true_iff, mem_iff]

@[simp]
theorem mem_single : c ∈ single d ↔ c = d :=
  ⟨fun h => Char.le_antisymm h.2 h.1, fun h => h ▸ ⟨Char.le_refl _, Char.le_refl _⟩⟩

theorem ofBounds?_eq_some_iff {lo hi : Char} : ofBounds? lo hi = some r ↔ r.lo = lo ∧ r.hi = hi := by
  rw [ofBounds?]
  split
  · rw [Option.some.injEq, eq_comm, CharRange.ext_iff]
  · rename_i h
    refine iff_of_false nofun ?_
    rintro ⟨rfl, rfl⟩
    exact h r.lo_le_hi

theorem ofBounds?_eq_none_iff {lo hi : Char} : ofBounds? lo hi = none ↔ hi < lo := by
  rw [ofBounds?]
  split
  · rename_i h
    exact iff_of_false nofun (not_lt.mpr h)
  · rename_i h
    exact iff_of_true rfl (not_le.mp h)

/-! ## Ranges and their neighbours -/

/-- Whether all characters of the first range come before those of the second. -/
def Before (r s : CharRange) : Prop := r.hi < s.lo

theorem before_iff : r.Before s ↔ ∀ c ∈ r, ∀ d ∈ s, c < d :=
  ⟨fun h _ hc _ hd => lt_of_le_of_lt hc.2 (lt_of_lt_of_le h hd.1), fun h => h _ r.hi_mem _ s.lo_mem⟩

instance : Std.Irrefl Before := ⟨fun r h => not_lt.mpr r.lo_le_hi h⟩

instance : Std.Antisymm Before :=
  ⟨fun r s h h' => absurd (h.trans_le (s.lo_le_hi.trans (le_of_lt h'))) (not_lt.mpr r.lo_le_hi)⟩

/-- Whether no character is in both ranges. -/
def Apart (r s : CharRange) : Prop := ∀ c ∈ r, c ∉ s

instance : Std.Symm Apart := ⟨fun _ _ h c hs hr => h c hr hs⟩

theorem Before.apart (h : r.Before s) : r.Apart s := fun c hr hs => lt_irrefl c (before_iff.mp h c hr c hs)

theorem overlaps_iff : r.overlaps s = true ↔ ∃ c, c ∈ r ∧ c ∈ s := by
  rw [overlaps, Bool.and_eq_true, decide_eq_true_iff, decide_eq_true_iff]
  constructor
  · rintro ⟨h, h'⟩
    rcases le_total r.lo s.lo with le | le
    · exact ⟨s.lo, ⟨le, h'⟩, s.lo_mem⟩
    · exact ⟨r.lo, r.lo_mem, le, h⟩
  · rintro ⟨c, hr, hs⟩
    exact ⟨le_trans hr.1 hs.2, le_trans hs.1 hr.2⟩

/-- Of two ranges that do not overlap one comes before the other. -/
theorem before_or_before (h : r.overlaps s = false) : r.Before s ∨ s.Before r := by
  rw [overlaps, Bool.and_eq_false_iff, decide_eq_false_iff_not, decide_eq_false_iff_not, not_le, not_le] at h
  exact h.symm

theorem touches_of_overlaps (h : r.overlaps s = true) : r.touches s = true := by
  rw [touches, h]
  rfl

/-- Ranges that touch leave out no character between them. -/
theorem touches_iff : r.touches s = true ↔ ∀ c, ¬(r.hi < c ∧ c < s.lo) ∧ ¬(s.hi < c ∧ c < r.lo) := by
  have hr := r.lo_le_hi
  have hs := s.lo_le_hi
  rw [touches, Bool.or_eq_true, Bool.or_eq_true, beq_iff_eq, beq_iff_eq]
  constructor
  · rintro ((h | h) | h) c
    · obtain ⟨d, hd, hd'⟩ := overlaps_iff.mp h
      exact ⟨fun gap => absurd (hd'.1.trans hd.2) (not_le.mpr (gap.1.trans gap.2)),
        fun gap => absurd (hd.1.trans hd'.2) (not_le.mpr (gap.1.trans gap.2))⟩
    · have next : s.lo ≤ c ↔ r.hi < c := le_iff_of_succ? h
      have before : r.hi < s.lo := (le_iff_of_succ? h).mp le_rfl
      exact ⟨by grind, by grind⟩
    · have next : r.lo ≤ c ↔ s.hi < c := le_iff_of_succ? h
      have before : s.hi < r.lo := (le_iff_of_succ? h).mp le_rfl
      exact ⟨by grind, by grind⟩
  · intro h
    cases overlap : r.overlaps s with
    | true => exact .inl (.inl rfl)
    | false =>
      rcases before_or_before overlap with before | before
      · cases next : r.hi.succ? with
        | none => exact absurd (le_of_succ?_eq_none (e := s.lo) next) (not_le.mpr before)
        | some d =>
          have le : d ≤ s.lo := (le_iff_of_succ? next).mpr before
          have behind : r.hi < d := (le_iff_of_succ? next).mp le_rfl
          exact .inl (.inr (congrArg some (le_antisymm le (not_lt.mp fun lt => (h d).1 ⟨behind, lt⟩))))
      · cases next : s.hi.succ? with
        | none => exact absurd (le_of_succ?_eq_none (e := r.lo) next) (not_le.mpr before)
        | some d =>
          have le : d ≤ r.lo := (le_iff_of_succ? next).mpr before
          have behind : s.hi < d := (le_iff_of_succ? next).mp le_rfl
          exact .inr (congrArg some (le_antisymm le (not_lt.mp fun lt => (h d).2 ⟨behind, lt⟩)))

theorem touches_comm (r s : CharRange) : r.touches s = s.touches r := by
  rw [Bool.eq_iff_iff, touches_iff, touches_iff]
  exact forall_congr' fun c => and_comm

theorem lo_hull (r s : CharRange) : (r.hull s).lo = min r.lo s.lo := (min_def r.lo s.lo).symm

theorem mem_hull (h : r.touches s = true) : c ∈ r.hull s ↔ c ∈ r ∨ c ∈ s := by
  have hr := r.lo_le_hi
  have hs := s.lo_le_hi
  have gap := touches_iff.mp h c
  simp only [hull, mem_iff]
  grind

/-! ## Parts of a range -/

theorem below?_eq_some (h : r.below? d = some s) : s.lo = r.lo ∧ ∀ c, c ≤ s.hi ↔ c < d := by
  obtain ⟨last, hlast, hs⟩ := Option.bind_eq_some_iff.mp h
  obtain ⟨lo, rfl⟩ := ofBounds?_eq_some_iff.mp hs
  exact ⟨lo, fun c => le_iff_of_predChar? hlast⟩

theorem below?_eq_none (h : r.below? d = none) : d ≤ r.lo := by
  cases previous : predChar? d with
  | none => exact le_of_predChar?_eq_none previous
  | some last =>
    rw [below?, previous, Option.bind_some, ofBounds?_eq_none_iff] at h
    exact not_lt.mp fun lt => absurd ((le_iff_of_predChar? previous).mpr lt) (not_le.mpr h)

theorem above?_eq_some (h : r.above? d = some s) : s.hi = r.hi ∧ ∀ c, s.lo ≤ c ↔ d < c := by
  obtain ⟨first, hfirst, hs⟩ := Option.bind_eq_some_iff.mp h
  obtain ⟨rfl, hi⟩ := ofBounds?_eq_some_iff.mp hs
  exact ⟨hi, fun c => le_iff_of_succ? hfirst⟩

theorem above?_eq_none (h : r.above? d = none) : r.hi ≤ d := by
  cases next : d.succ? with
  | none => exact le_of_succ?_eq_none next
  | some first =>
    rw [above?, next, Option.bind_some, ofBounds?_eq_none_iff] at h
    exact not_lt.mp fun lt => absurd ((le_iff_of_succ? next).mpr lt) (not_le.mpr h)

end CharRange
end TableParsing
