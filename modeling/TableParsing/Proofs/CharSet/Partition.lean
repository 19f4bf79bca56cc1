import Mathlib
import TableParsing.Proofs.CharSet.Elementary
import TableParsing.Proofs.CharSet.Gapped

/-! # One partition for a family of labels

The elementary ranges of some labels are the **cells** between their boundaries: each runs from one boundary to the next,
inside of a label (`mem_ranges_iff_isCell`).  What a cell is can be told from the members of the family, so the elementary
ranges depend neither on the order of the labels nor on how often one is given (`elementary_congr`).

Where two cells touch, a label has a boundary.  If no two ranges of that label touch, it begins or ends there, so it has
one of the two cells and not the other. -/

namespace TableParsing

variable {r s : CharRange} {c d : Char}

/-! ## Inside and outside -/

namespace CharRange

/-- Whether the set has all characters of the range. -/
def Inside (r : CharRange) (set : CharSet) : Prop := ∀ c ∈ r, c ∈ set

/-- Whether the set has no character of the range. -/
def Outside (r : CharRange) (set : CharSet) : Prop := ∀ c ∈ r, c ∉ set

variable {set : CharSet}

theorem Uniform.inside (h : r.Uniform set) (hr : c ∈ r) (hc : c ∈ set) : r.Inside set :=
  fun d hd => h c hr d hd hc

theorem Uniform.outside (h : r.Uniform set) (hr : c ∈ r) (hc : c ∉ set) : r.Outside set :=
  fun d hd hd' => hc (h d hd c hr hd')

theorem Uniform.inside_or_outside (h : r.Uniform set) : r.Inside set ∨ r.Outside set := by
  by_cases hc : r.lo ∈ set
  · exact .inl (h.inside r.lo_mem hc)
  · exact .inr (h.outside r.lo_mem hc)

/-- The range behind another one that it touches begins with the next character. -/
theorem succ?_eq_of_touches (before : r.Before s) (touches : r.touches s = true) : r.hi.succ? = some s.lo := by
  cases next : r.hi.succ? with
  | none => exact absurd (le_of_succ?_eq_none next) (not_le.mpr before)
  | some n =>
    have le : n ≤ s.lo := (le_iff_of_succ? next).mpr before
    have behind : r.hi < n := (le_iff_of_succ? next).mp le_rfl
    have no_gap : ¬n < s.lo := fun lt => (touches_iff.mp touches n).1 ⟨behind, lt⟩
    exact congrArg some (le_antisymm le (not_lt.mp no_gap))

end CharRange

/-! ## Cells -/

/-- Whether the range runs from one boundary of the labels to the next, inside of a label. -/
structure CharRange.IsCell (r : CharRange) (labels : List CharSet) : Prop where
  covered : ∃ label ∈ labels, r.lo ∈ label
  of_isBoundary : ∀ b, r.IsBoundary b → ∃ label ∈ labels, b ∈ label.boundaries
  uncut : ∀ label ∈ labels, ∀ b ∈ label.boundaries, r.Uncut b

namespace CharSet
variable {set other columns : CharSet} {labels labels' : List CharSet}

/-- **The elementary ranges are the cells between the boundaries of the labels.** -/
theorem Elementary.mem_ranges_iff_isCell (h : columns.Elementary labels) : r ∈ columns.ranges ↔ r.IsCell labels := by
  constructor
  · intro hr
    exact {
      covered := (h.mem_iff r.lo).mp ⟨r, hr, r.lo_mem⟩
      of_isBoundary := fun b hb => h.of_mem_boundaries b (mem_boundaries.mpr ⟨r, hr, hb⟩)
      uncut := h.uncut r hr }
  · intro cell
    obtain ⟨s, hs, lo⟩ := (h.mem_iff r.lo).mpr cell.covered
    -- neither of the two ranges has a boundary of the other one inside
    have uncut : ∀ b, s.IsBoundary b → r.Uncut b := by
      intro b hb
      obtain ⟨label, hl, hb⟩ := h.of_mem_boundaries b (mem_boundaries.mpr ⟨s, hs, hb⟩)
      exact cell.uncut label hl b hb
    have uncut' : ∀ b, r.IsBoundary b → s.Uncut b := by
      intro b hb
      obtain ⟨label, hl, hb⟩ := cell.of_isBoundary b hb
      exact h.uncut s hs label hl b hb
    exact eq_of_uncut uncut uncut' r.lo_mem lo ▸ hs

theorem isCell_of_mem_iff (same : ∀ label, label ∈ labels ↔ label ∈ labels') (h : r.IsCell labels) :
    r.IsCell labels' := by
  obtain ⟨label, hl, covered⟩ := h.covered
  refine ⟨⟨label, (same label).mp hl, covered⟩, fun b hb => ?_, fun label hl => h.uncut label ((same label).mpr hl)⟩
  obtain ⟨label, hl, hb⟩ := h.of_isBoundary b hb
  exact ⟨label, (same label).mp hl, hb⟩

/-- **The order of the labels does not count, nor how often one is given.** -/
theorem elementary_congr (h : ∀ label ∈ labels, label.WellFormed) (same : ∀ label, label ∈ labels' ↔ label ∈ labels) :
    elementary labels' = elementary labels := by
  have columns := elementary_elementary h
  have columns' := @elementary_elementary labels' fun label hl => h label ((same label).mp hl)
  refine columns'.wellFormed.eq_of_mem_ranges_iff columns.wellFormed fun r => ?_
  rw [columns'.mem_ranges_iff_isCell, columns.mem_ranges_iff_isCell]
  exact ⟨isCell_of_mem_iff same, isCell_of_mem_iff fun label => (same label).symm⟩

/-! ## Cells that touch -/

/-- At each of its boundaries a gapped set begins or ends. -/
theorem mem_iff_not_mem_of_mem_boundaries (h : Gapped set.ranges) (next : c.succ? = some d)
    (hd : d ∈ set.boundaries) : c ∈ set ↔ d ∉ set := by
  obtain ⟨r, hr, hd⟩ := mem_boundaries.mp hd
  have run := isRun_of_mem_ranges h hr
  rcases hd with rfl | hi
  · have previous : predChar? r.lo = some c := predChar?_eq_some_iff.mpr (succ?_eq_some_iff.mp next)
    exact iff_of_false (run.not_mem_front c previous) (not_not.mpr (run.mem _ r.lo_mem))
  · have same : c = r.hi := by
      rw [succ?_eq_some_iff] at next hi
      rw [← Char.ordinal_inj, Fin.ext_iff]
      omega
    exact iff_of_true (same ▸ run.mem _ r.hi_mem) (run.not_mem_behind d hi)

/-- A label divides two ranges if one of them is inside of it and the other one outside. -/
theorem Elementary.divided_of_before (h : columns.Elementary labels) (gapped : ∀ label ∈ labels, Gapped label.ranges)
    (hr : r ∈ columns.ranges) (hs : s ∈ columns.ranges) (before : r.Before s) (touches : r.touches s = true) :
    ∃ label ∈ labels, r.Inside label ∧ s.Outside label ∨ r.Outside label ∧ s.Inside label := by
  obtain ⟨label, hl, hb⟩ := h.of_mem_boundaries s.lo (mem_boundaries.mpr ⟨s, hs, .inl rfl⟩)
  have turns := mem_iff_not_mem_of_mem_boundaries (gapped label hl) (CharRange.succ?_eq_of_touches before touches) hb
  have first := h.uniform r hr label hl
  have second := h.uniform s hs label hl
  refine ⟨label, hl, ?_⟩
  by_cases hc : r.hi ∈ label
  · exact .inl ⟨first.inside r.hi_mem hc, second.outside s.lo_mem (turns.mp hc)⟩
  · exact .inr ⟨first.outside r.hi_mem hc, second.inside s.lo_mem (not_not.mp (mt turns.mpr hc))⟩

/-- Two pieces of aligned sets are one range, or they share no character. -/
theorem Aligned.eq_or_apart {aligned : CharSet × CharSet} (h : Aligned set other aligned) (hr : r ∈ aligned.1.ranges)
    (hs : s ∈ aligned.2.ranges) : r = s ∨ r.Apart s := by
  by_cases apart : r.Apart s
  · exact .inr apart
  · obtain ⟨c, hcr, hcs⟩ : ∃ c ∈ r, c ∈ s := by simpa [CharRange.Apart] using apart
    exact .inl (eq_of_uncut (fun b => h.uncut (.inl hr) (.inr hs)) (fun b => h.uncut (.inr hs) (.inl hr)) hcr hcs)

/-- **The elementary ranges are the common partition of the labels**: they ascend, have the characters of the labels, and
lie each inside or outside of each label.  They are the same for every family with these members, and if no two ranges of
a label touch, those that touch are divided by a label.  Two sets that were aligned have pieces that are equal or share
no character. -/
theorem elementary_partitions (wellFormed : ∀ label ∈ labels, label.WellFormed) :
    (elementary labels).WellFormed ∧
    (∀ c, c ∈ elementary labels ↔ ∃ label ∈ labels, c ∈ label) ∧
    (∀ r ∈ (elementary labels).ranges, ∀ label ∈ labels, r.Inside label ∨ r.Outside label) ∧
    (∀ labels' : List CharSet, (∀ label, label ∈ labels' ↔ label ∈ labels) → elementary labels' = elementary labels) ∧
    ((∀ label ∈ labels, ∀ r ∈ label.ranges, ∀ s ∈ label.ranges, r ≠ s → r.touches s = false) →
      ∀ r ∈ (elementary labels).ranges, ∀ s ∈ (elementary labels).ranges, r ≠ s → r.touches s = true →
        ∃ label ∈ labels, r.Inside label ∧ s.Outside label ∨ r.Outside label ∧ s.Inside label) ∧
    (∀ set other : CharSet, set.WellFormed → other.WellFormed →
      ∀ r ∈ (set.align other).1.ranges, ∀ s ∈ (set.align other).2.ranges, r = s ∨ r.Apart s) := by
  have columns := elementary_elementary wellFormed
  refine ⟨columns.wellFormed, columns.mem_iff, fun r hr label hl => ?_, fun labels' => elementary_congr wellFormed, ?_, ?_⟩
  · exact (columns.uniform r hr label hl).inside_or_outside
  · intro apart r hr s hs ne touches
    have gapped : ∀ label ∈ labels, Gapped label.ranges :=
      fun label hl => gapped_iff.mpr ⟨wellFormed label hl, apart label hl⟩
    rcases columns.wellFormed.before_or_before hr hs ne with before | before
    · exact columns.divided_of_before gapped hr hs before touches
    · have touches' : s.touches r = true := CharRange.touches_comm r s ▸ touches
      obtain ⟨label, hl, divided⟩ := columns.divided_of_before gapped hs hr before touches'
      exact ⟨label, hl, divided.symm.imp And.symm And.symm⟩
  · intro set other hset hother r hr s hs
    exact (aligned_align hset hother).eq_or_apart hr hs

/-- The letter e divides the letters, in whatever order the labels are given. -/
theorem elementary_partitions_letters :
    (∀ label ∈ [between 'a' 'z', single 'e', digit], label.WellFormed) ∧
    elementary [digit, single 'e', between 'a' 'z', digit] = elementary [between 'a' 'z', single 'e', digit] ∧
    (elementary [between 'a' 'z', single 'e', digit]).ranges =
      [.between '0' '9', .between 'a' 'd', .single 'e', .between 'f' 'z'] ∧
    ∃ label ∈ [between 'a' 'z', single 'e', digit],
      (CharRange.between 'a' 'd').Inside label ∧ (CharRange.single 'e').Outside label ∨
        (CharRange.between 'a' 'd').Outside label ∧ (CharRange.single 'e').Inside label := by
  have wellFormed : ∀ label ∈ [between 'a' 'z', single 'e', digit], label.WellFormed := by
    simp [wellFormed_between, wellFormed_single, digit]
  have ranges : (elementary [between 'a' 'z', single 'e', digit]).ranges =
      [.between '0' '9', .between 'a' 'd', .single 'e', .between 'f' 'z'] := by cbv
  obtain ⟨-, -, -, congr, divided, -⟩ := elementary_partitions wellFormed
  refine ⟨wellFormed, congr _ ?_, ranges, divided ?_ _ ?_ _ ?_ ?_ ?_⟩
  · simp only [List.mem_cons, List.not_mem_nil, or_false]
    tauto
  · decide
  · rw [ranges]
    simp
  · rw [ranges]
    simp
  · decide
  · decide

end CharSet
end TableParsing
