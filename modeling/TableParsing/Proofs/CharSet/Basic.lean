import Mathlib.Data.List.Pairwise
import Mathlib.Data.List.Sort
import Mathlib.Tactic.Tauto
import TableParsing.Proofs.CharSet.Range

/-! # Characters of sets

The ranges of a set **ascend**: each comes before all that follow it.  Every operation on sets keeps that, and has
the characters that its name says. -/

namespace TableParsing

/-- Whether each range comes before all that follow it. -/
def Ascending (ranges : List CharRange) : Prop := ranges.Pairwise CharRange.Before

variable {ranges rest holes : List CharRange} {r s t : CharRange} {c : Char}

/-- In ascending ranges a character is in one range at most. -/
theorem Ascending.eq_of_mem (h : Ascending ranges) (hr : r ∈ ranges) (hs : s ∈ ranges) (hcr : c ∈ r) (hcs : c ∈ s) :
    r = s := by
  by_contra ne
  exact (h.imp CharRange.Before.apart).forall hr hs ne c hcr hcs

/-- Of two different ranges one comes before the other. -/
theorem Ascending.before_or_before (h : Ascending ranges) (hr : r ∈ ranges) (hs : s ∈ ranges) (ne : r ≠ s) :
    r.Before s ∨ s.Before r := by
  refine CharRange.before_or_before (Bool.eq_false_iff.mpr fun overlap => ne ?_)
  obtain ⟨c, hcr, hcs⟩ := CharRange.overlaps_iff.mp overlap
  exact h.eq_of_mem hr hs hcr hcs

/-! ## Insertion -/

section Place
variable {joins : CharRange → CharRange → Bool}

theorem mem_place (touching : ∀ s r, joins s r = true → s.touches r = true) :
    (∃ t ∈ CharSet.place joins r ranges, c ∈ t) ↔ c ∈ r ∨ ∃ t ∈ ranges, c ∈ t := by
  induction ranges generalizing r with
  | nil => simp [CharSet.place]
  | cons s rest ih =>
    rw [CharSet.place]
    split
    · rename_i h
      rw [ih, CharRange.mem_hull (touching s r h), List.exists_mem_cons_iff]
      tauto
    · split
      · rw [List.exists_mem_cons_iff, ih, List.exists_mem_cons_iff]
        tauto
      · rw [List.exists_mem_cons_iff]

/-- A range goes between those that come before it and those that come behind it. -/
theorem ascending_place (touching : ∀ s r, joins s r = true → s.touches r = true)
    (overlapping : ∀ s r, s.overlaps r = true → joins s r = true) (h : Ascending ranges) :
    Ascending (CharSet.place joins r ranges) := by
  induction ranges generalizing r with
  | nil => exact List.pairwise_singleton ..
  | cons s rest ih =>
    obtain ⟨first, h⟩ := List.pairwise_cons.mp h
    rw [CharSet.place]
    split
    · exact ih h
    · rename_i apart
      split
      · rename_i before
        refine List.pairwise_cons.mpr ⟨fun t ht => ?_, ih h⟩
        -- the first character of a range that was placed is one of those from before
        have lo : t.lo ∈ r ∨ ∃ u ∈ rest, t.lo ∈ u := (mem_place touching).mp ⟨t, ht, t.lo_mem⟩
        rcases lo with lo | ⟨u, hu, lo⟩
        · exact lt_of_lt_of_le before lo.1
        · exact lt_of_lt_of_le (first u hu) lo.1
      · rename_i notBefore
        have overlap : s.overlaps r = false := Bool.eq_false_iff.mpr fun h => apart (overlapping s r h)
        have before : r.Before s := (CharRange.before_or_before overlap).resolve_left notBefore
        refine List.pairwise_cons.mpr ⟨fun t ht => ?_, List.pairwise_cons.mpr ⟨first, h⟩⟩
        rcases List.mem_cons.mp ht with rfl | ht
        · exact before
        · exact lt_of_lt_of_le before (s.lo_le_hi.trans (le_of_lt (first t ht)))

/-- A range that joins no other is placed as it is. -/
theorem mem_place_of_apart (apart : ∀ s ∈ ranges, joins s r = false) :
    t ∈ CharSet.place joins r ranges ↔ t = r ∨ t ∈ ranges := by
  induction ranges with
  | nil => simp [CharSet.place]
  | cons s rest ih =>
    rw [CharSet.place, if_neg (by simp [apart s List.mem_cons_self])]
    split
    · rw [List.mem_cons, ih fun u hu => apart u (List.mem_cons_of_mem _ hu), List.mem_cons]
      tauto
    · rw [List.mem_cons]

end Place

/-! ## Holes -/

namespace CharRange

/-- The characters in front of one of the range. -/
theorem mem_below? {d : Char} (hd : d ≤ r.hi) : (∃ t ∈ (r.below? d).toList, c ∈ t) ↔ c ∈ r ∧ c < d := by
  cases h : r.below? d with
  | none =>
    have := below?_eq_none h
    simp only [Option.toList_none, List.not_mem_nil, false_and, exists_false, mem_iff]
    grind
  | some s =>
    obtain ⟨lo, hi⟩ := below?_eq_some h
    simp only [Option.toList_some, List.mem_singleton, exists_eq_left, mem_iff, lo, hi]
    grind

theorem mem_minus (h : Ascending holes) : (∃ t ∈ r.minus holes, c ∈ t) ↔ c ∈ r ∧ ∀ hole ∈ holes, c ∉ hole := by
  induction holes generalizing r with
  | nil => simp [minus]
  | cons hole holes ih =>
    obtain ⟨first, h⟩ := List.pairwise_cons.mp h
    rw [minus, List.forall_mem_cons]
    split
    · rename_i overlap
      obtain ⟨lo_le, le_hi⟩ : hole.lo ≤ r.hi ∧ r.lo ≤ hole.hi := by simpa [overlaps] using overlap
      simp only [List.mem_append, or_and_right, exists_or, mem_below? lo_le]
      -- what comes behind the hole is all that later holes can meet
      have later : c < hole.lo → ∀ other ∈ holes, c ∉ other := fun lt other ho hc =>
        absurd (lt.trans (lt_of_le_of_lt hole.lo_le_hi (lt_of_lt_of_le (first other ho) hc.1))) (lt_irrefl c)
      cases hrest : r.above? hole.hi with
      | none =>
        have := above?_eq_none hrest
        simp only [List.not_mem_nil, false_and, exists_false, or_false, mem_iff (r := hole), mem_iff (r := r)]
        grind
      | some rest =>
        obtain ⟨hi, lo⟩ := above?_eq_some hrest
        simp only [ih h, mem_iff (r := rest), mem_iff (r := hole), mem_iff (r := r), lo, hi]
        grind
    · rename_i apart
      have apart : c ∈ r → c ∉ hole := fun hr hh => apart (overlaps_iff.mpr ⟨c, hh, hr⟩)
      rw [ih h]
      tauto

theorem ascending_minus (h : Ascending holes) : Ascending (r.minus holes) := by
  induction holes generalizing r with
  | nil => exact List.pairwise_singleton ..
  | cons hole holes ih =>
    obtain ⟨first, h⟩ := List.pairwise_cons.mp h
    rw [minus]
    split
    · refine List.pairwise_append.mpr ⟨?_, ?_, ?_⟩
      · cases r.below? hole.lo <;> simp
      · split
        · exact ih h
        · exact .nil
      · intro s hs t ht
        obtain ⟨-, hi⟩ := below?_eq_some (Option.mem_toList.mp hs)
        split at ht
        · rename_i rest hrest
          obtain ⟨-, lo⟩ := above?_eq_some hrest
          have front : s.hi < hole.lo := (hi s.hi).mp le_rfl
          have back : hole.hi < t.lo := (lo t.lo).mp ((mem_minus h).mp ⟨t, ht, t.lo_mem⟩).1.1
          exact front.trans (lt_of_le_of_lt hole.lo_le_hi back)
        · cases ht
    · exact ih h

end CharRange

/-! ## Sets -/

namespace CharSet
variable {set other : CharSet}

instance : Membership Char CharSet := ⟨fun set c => ∃ r ∈ set.ranges, c ∈ r⟩

theorem mem_iff : c ∈ set ↔ ∃ r ∈ set.ranges, c ∈ r := Iff.rfl

@[simp]
theorem contains_iff : set.contains c = true ↔ c ∈ set := by
  rw [contains, indexOf?, List.findIdx?_isSome, List.any_eq_true, mem_iff]
  simp only [CharRange.contains_iff]

theorem exists_of_indexOf? {i : Nat} (h : set.indexOf? c = some i) : ∃ r, set.ranges[i]? = some r ∧ c ∈ r := by
  obtain ⟨hi, contains, -⟩ := List.findIdx?_eq_some_iff_getElem.mp h
  exact ⟨_, List.getElem?_eq_getElem hi, CharRange.contains_iff.mp contains⟩

theorem indexOf?_eq_none_iff : set.indexOf? c = none ↔ c ∉ set := by
  rw [← contains_iff, contains, Option.not_isSome_iff_eq_none]

/-- Whether the ranges of the set ascend. -/
def WellFormed (set : CharSet) : Prop := Ascending set.ranges

theorem wellFormed_empty : empty.WellFormed := List.Pairwise.nil

/-- A set is made of its ranges in the only order in which they ascend. -/
theorem WellFormed.eq_of_mem_ranges_iff (h : set.WellFormed) (h' : other.WellFormed)
    (same : ∀ r, r ∈ set.ranges ↔ r ∈ other.ranges) : set = other :=
  congrArg CharSet.mk (h.eq_of_mem_iff h' same)

@[simp]
theorem not_mem_empty : c ∉ empty := fun ⟨_, h, _⟩ => List.not_mem_nil h

@[simp]
theorem mem_insert : c ∈ set.insert r ↔ c ∈ r ∨ c ∈ set := mem_place fun _ _ h => h

theorem WellFormed.insert (h : set.WellFormed) (r : CharRange) : (set.insert r).WellFormed :=
  ascending_place (fun _ _ h => h) (fun _ _ => CharRange.touches_of_overlaps) h

@[simp]
theorem mem_insertApart : c ∈ set.insertApart r ↔ c ∈ r ∨ c ∈ set := mem_place fun _ _ => CharRange.touches_of_overlaps

theorem WellFormed.insertApart (h : set.WellFormed) (r : CharRange) : (set.insertApart r).WellFormed :=
  ascending_place (fun _ _ => CharRange.touches_of_overlaps) (fun _ _ h => h) h

/-- A range that overlaps no other is inserted as it is. -/
theorem mem_ranges_insertApart (apart : ∀ s ∈ set.ranges, s.overlaps r = false) :
    t ∈ (set.insertApart r).ranges ↔ t = r ∨ t ∈ set.ranges := mem_place_of_apart apart

@[simp]
theorem mem_insertChar {d : Char} : c ∈ set.insertChar d ↔ c = d ∨ c ∈ set := by
  rw [insertChar, mem_insert, CharRange.mem_single]

theorem WellFormed.insertChar (h : set.WellFormed) (c : Char) : (set.insertChar c).WellFormed := h.insert _

@[simp]
theorem mem_union : c ∈ set.union other ↔ c ∈ set ∨ c ∈ other := by
  have all : ∀ rs : List CharRange, c ∈ rs.foldl CharSet.insert set ↔ c ∈ set ∨ ∃ r ∈ rs, c ∈ r := by
    intro rs
    induction rs generalizing set with
    | nil => simp
    | cons r rs ih =>
      rw [List.foldl_cons, ih, mem_insert, List.exists_mem_cons_iff]
      tauto
  exact all other.ranges

theorem WellFormed.union (h : set.WellFormed) (other : CharSet) : (set.union other).WellFormed :=
  List.foldlRecOn other.ranges CharSet.insert h fun _ h r _ => h.insert r

theorem mem_diff (h : other.WellFormed) : c ∈ set.diff other ↔ c ∈ set ∧ c ∉ other := by
  have mem : c ∈ set.diff other ↔ ∃ r ∈ set.ranges, ∃ t ∈ r.minus other.ranges, c ∈ t := by
    rw [mem_iff, diff]
    simp only [List.mem_flatMap]
    tauto
  rw [mem]
  simp only [CharRange.mem_minus h, mem_iff, not_exists, not_and]
  tauto

theorem WellFormed.diff (h : set.WellFormed) (h' : other.WellFormed) : (set.diff other).WellFormed := by
  refine List.pairwise_flatMap.mpr ⟨fun r _ => CharRange.ascending_minus h', h.imp fun {r s} before t ht u hu => ?_⟩
  have front : t.hi ∈ r := ((CharRange.mem_minus h').mp ⟨t, ht, t.hi_mem⟩).1
  have back : u.lo ∈ s := ((CharRange.mem_minus h').mp ⟨u, hu, u.lo_mem⟩).1
  exact CharRange.before_iff.mp before _ front _ back

theorem wellFormed_between (a b : Char) : (between a b).WellFormed := wellFormed_empty.insert _

theorem wellFormed_single (a : Char) : (single a).WellFormed := wellFormed_empty.insertChar a

theorem WellFormed.complement (h : set.WellFormed) : set.complement.WellFormed := (wellFormed_between _ _).diff h

end CharSet
end TableParsing
