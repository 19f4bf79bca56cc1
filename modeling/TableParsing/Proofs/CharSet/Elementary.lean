import TableParsing.CharSet.Elementary
import TableParsing.Proofs.Sorting
import TableParsing.Proofs.CharSet.Basic

/-! # Elementary ranges tell no characters apart

The elementary ranges of a family of labels have the characters of the labels, they ascend, and **their boundaries are
those of the labels** (`Elementary`), so each of them lies inside or outside of each label.  Refining them for one more
label keeps that: cut at all boundaries, a piece of a range lies inside or outside of any range of the other set, and the
pieces that are new overlap none of those that are there. -/

namespace TableParsing

variable {ranges : List CharRange} {cuts : List Char} {r t : CharRange} {c d : Char}

/-- Whether the range lies inside or outside of the set. -/
def CharRange.Uniform (r : CharRange) (set : CharSet) : Prop := ∀ c ∈ r, ∀ d ∈ r, c ∈ set → d ∈ set

/-! ## Cutting -/

/-- Whether a cut in front of `c` leaves the range whole. -/
def CharRange.Uncut (r : CharRange) (c : Char) : Prop := c ≤ r.lo ∨ r.hi < c

/-- Whether the range begins with `c` or ends right in front of it. -/
def CharRange.IsBoundary (r : CharRange) (c : Char) : Prop := c = r.lo ∨ r.hi.succ? = some c

section Cut
variable {front back : CharRange} (lt : r.lo < d) (hfront : r.below? d = some front)
  (hback : CharRange.ofBounds? d r.hi = some back)
include lt hfront hback

/-- A range with a cut in it falls into the part in front of the cut and the one behind it. -/
theorem CharRange.mem_iff_of_cut : c ∈ r ↔ c ∈ front ∨ c ∈ back := by
  obtain ⟨lo, hi⟩ := below?_eq_some hfront
  obtain ⟨lo', hi'⟩ := ofBounds?_eq_some_iff.mp hback
  have inside := back.lo_le_hi
  simp only [mem_iff, lo, hi, lo', hi'] at inside ⊢
  grind

omit lt in
theorem CharRange.before_of_cut : front.Before back := by
  rw [Before, (ofBounds?_eq_some_iff.mp hback).1]
  exact ((below?_eq_some hfront).2 front.hi).mp le_rfl

omit lt in
/-- The cut is the only boundary of the parts that the range did not have. -/
theorem CharRange.isBoundary_of_cut (h : front.IsBoundary c ∨ back.IsBoundary c) : c = d ∨ r.IsBoundary c := by
  obtain ⟨lo, hi⟩ := below?_eq_some hfront
  obtain ⟨lo', hi'⟩ := ofBounds?_eq_some_iff.mp hback
  rcases h with (h | h) | (h | h)
  · exact .inr (.inl (h.trans lo))
  · have next := le_iff_of_succ? h (e := d)
    have behind : front.hi < c := (le_iff_of_succ? h).mp le_rfl
    exact .inl (le_antisymm (next.mpr ((hi front.hi).mp le_rfl)) (not_lt.mp fun lt => not_le.mpr behind ((hi c).mpr lt)))
  · exact .inl (h.trans lo')
  · exact .inr (.inr (hi' ▸ h))

omit lt hfront in
/-- The part behind the cut stands where the range stood. -/
theorem Ascending.cut (h : Ascending (r :: ranges)) : Ascending (back :: ranges) := by
  obtain ⟨first, h⟩ := List.pairwise_cons.mp h
  refine List.pairwise_cons.mpr ⟨fun t ht => ?_, h⟩
  exact lt_of_le_of_lt (CharRange.ofBounds?_eq_some_iff.mp hback).2.le (first t ht)

end Cut

namespace CharSet

theorem mem_cutRanges (ranges : List CharRange) (cuts : List Char) :
    (∃ t ∈ cutRanges ranges cuts, c ∈ t) ↔ ∃ r ∈ ranges, c ∈ r := by
  fun_induction cutRanges ranges cuts with
  | case1 => rfl
  | case2 => rfl
  | case3 _ _ _ _ _ ih => exact ih
  | case4 r ranges cut cuts lt front back hback hfront ih =>
    rw [List.exists_mem_cons_iff, ih, List.exists_mem_cons_iff, List.exists_mem_cons_iff, ← or_assoc,
      CharRange.mem_iff_of_cut (not_le.mp lt) hfront hback]
  | case5 _ _ _ _ _ _ ih => rw [List.exists_mem_cons_iff, ih, List.exists_mem_cons_iff]

/-- What comes before all ranges comes before all pieces. -/
theorem before_of_mem_cutRanges (h : ∀ s ∈ ranges, r.Before s) (ht : t ∈ cutRanges ranges cuts) : r.Before t := by
  obtain ⟨s, hs, lo⟩ := (mem_cutRanges _ _).mp ⟨t, ht, t.lo_mem⟩
  exact lt_of_lt_of_le (h s hs) lo.1

theorem le_lo_of_mem_cutRanges (h : Ascending (r :: ranges)) (ht : t ∈ cutRanges (r :: ranges) cuts) : r.lo ≤ t.lo := by
  obtain ⟨s, hs, lo⟩ := (mem_cutRanges _ _).mp ⟨t, ht, t.lo_mem⟩
  rcases List.mem_cons.mp hs with rfl | hs
  · exact lo.1
  · exact (r.lo_le_hi.trans (le_of_lt ((List.pairwise_cons.mp h).1 s hs))).trans lo.1

theorem ascending_cutRanges (h : Ascending ranges) (cuts : List Char) : Ascending (cutRanges ranges cuts) := by
  fun_induction cutRanges ranges cuts with
  | case1 => exact h
  | case2 => exact h
  | case3 _ _ _ _ _ ih => exact ih h
  | case4 r ranges cut cuts lt front back hback hfront ih =>
    have cut := CharRange.before_of_cut hfront hback
    have h := h.cut hback
    refine List.pairwise_cons.mpr ⟨fun t ht => before_of_mem_cutRanges ?_ ht, ih h⟩
    rw [List.forall_mem_cons]
    exact ⟨cut, fun s hs => cut.trans (lt_of_le_of_lt back.lo_le_hi ((List.pairwise_cons.mp h).1 s hs))⟩
  | case5 r ranges cut cuts _ _ ih =>
    obtain ⟨first, h⟩ := List.pairwise_cons.mp h
    exact List.pairwise_cons.mpr ⟨fun t ht => before_of_mem_cutRanges first ht, ih h⟩

/-- **Every cut is made.** -/
theorem uncut_of_mem_cutRanges (h : Ascending ranges) (sorted : cuts.Pairwise (· ≤ ·)) (ht : t ∈ cutRanges ranges cuts)
    (hc : c ∈ cuts) : t.Uncut c := by
  fun_induction cutRanges ranges cuts with
  | case1 => cases ht
  | case2 => cases hc
  | case3 r ranges cut cuts le ih =>
    obtain ⟨-, sorted⟩ := List.pairwise_cons.mp sorted
    rcases List.mem_cons.mp hc with rfl | hc
    · exact .inl (le.trans (le_lo_of_mem_cutRanges h ht))
    · exact ih h sorted ht hc
  | case4 r ranges cut cuts lt front back hback hfront ih =>
    obtain ⟨later, sorted⟩ := List.pairwise_cons.mp sorted
    have hi : front.hi < cut := ((CharRange.below?_eq_some hfront).2 _).mp le_rfl
    rcases List.mem_cons.mp ht with rfl | ht
    · rcases List.mem_cons.mp hc with rfl | hc
      · exact .inr hi
      · exact .inr (lt_of_lt_of_le hi (later c hc))
    · rcases List.mem_cons.mp hc with rfl | hc
      · exact .inl ((CharRange.ofBounds?_eq_some_iff.mp hback).1 ▸ le_lo_of_mem_cutRanges (h.cut hback) ht)
      · exact ih (h.cut hback) sorted ht hc
  | case5 r ranges cut cuts lt whole ih =>
    obtain ⟨-, h'⟩ := List.pairwise_cons.mp h
    rcases List.mem_cons.mp ht with rfl | ht
    · -- the first cut is behind the range, and so are the later ones
      have hi : t.hi < cut := by
        cases hfront : t.below? cut with
        | none => exact absurd (CharRange.below?_eq_none hfront) lt
        | some front =>
          cases hback : CharRange.ofBounds? cut t.hi with
          | none => exact CharRange.ofBounds?_eq_none_iff.mp hback
          | some back => exact absurd hback (whole front back hfront)
      rcases List.mem_cons.mp hc with rfl | hc
      · exact .inr hi
      · exact .inr (lt_of_lt_of_le hi ((List.pairwise_cons.mp sorted).1 c hc))
    · exact ih h' sorted ht hc

/-- Pieces begin and end where the ranges do, or at cuts. -/
theorem isBoundary_of_mem_cutRanges (ht : t ∈ cutRanges ranges cuts) (hc : t.IsBoundary c) :
    c ∈ cuts ∨ ∃ r ∈ ranges, r.IsBoundary c := by
  fun_induction cutRanges ranges cuts with
  | case1 => cases ht
  | case2 => exact .inr ⟨t, ht, hc⟩
  | case3 _ _ _ _ _ ih => exact (ih ht).imp_left (List.mem_cons_of_mem _)
  | case4 r ranges cut cuts _ front back hback hfront ih =>
    have ofPart (h : front.IsBoundary c ∨ back.IsBoundary c) : c ∈ cut :: cuts ∨ ∃ s ∈ r :: ranges, s.IsBoundary c :=
      (CharRange.isBoundary_of_cut hfront hback h).imp (fun h => List.mem_cons.mpr (.inl h))
        fun h => ⟨r, List.mem_cons_self, h⟩
    rcases List.mem_cons.mp ht with rfl | ht
    · exact ofPart (.inl hc)
    · rcases ih ht with h | ⟨s, hs, h⟩
      · exact .inl (List.mem_cons_of_mem _ h)
      · rcases List.mem_cons.mp hs with rfl | hs
        · exact ofPart (.inr h)
        · exact .inr ⟨s, List.mem_cons_of_mem _ hs, h⟩
  | case5 r ranges _ _ _ _ ih =>
    rcases List.mem_cons.mp ht with rfl | ht
    · exact .inr ⟨t, List.mem_cons_self, hc⟩
    · exact (ih ht).imp_right fun ⟨s, hs, h⟩ => ⟨s, List.mem_cons_of_mem _ hs, h⟩

/-! ## Boundaries -/

variable {set columns label : CharSet} {labels : List CharSet}

theorem mem_boundaries : c ∈ set.boundaries ↔ ∃ r ∈ set.ranges, r.IsBoundary c := by
  simp only [boundaries, List.mem_flatMap, List.mem_cons, Option.mem_toList, CharRange.IsBoundary]

/-- A range that no boundary of `t` cuts lies inside of `t` if it has a character of it. -/
theorem mem_of_uncut (uncut : ∀ b, t.IsBoundary b → r.Uncut b) (hc : c ∈ r) (hct : c ∈ t) (hd : d ∈ r) : d ∈ t := by
  have first : t.lo ≤ r.lo :=
    (uncut _ (.inl rfl)).resolve_right fun lt => absurd (hc.2.trans_lt lt) (not_lt.mpr hct.1)
  refine ⟨first.trans hd.1, ?_⟩
  cases next : t.hi.succ? with
  | none => exact le_of_succ?_eq_none next
  | some n =>
    rcases uncut n (.inr next) with behind | front
    · exact absurd ((le_iff_of_succ? next).mp (behind.trans hc.1)) (not_lt.mpr hct.2)
    · exact not_lt.mp fun lt => absurd ((le_iff_of_succ? next).mpr lt) (not_le.mpr (hd.2.trans_lt front))

/-- Ranges that do not cut one another are equal if they share a character. -/
theorem eq_of_uncut (hrt : ∀ b, t.IsBoundary b → r.Uncut b) (htr : ∀ b, r.IsBoundary b → t.Uncut b) (hc : c ∈ r)
    (hct : c ∈ t) : r = t := by
  have inside : ∀ d ∈ r, d ∈ t := fun d => mem_of_uncut hrt hc hct
  have outside : ∀ d ∈ t, d ∈ r := fun d => mem_of_uncut htr hct hc
  exact CharRange.ext (le_antisymm (outside _ t.lo_mem).1 (inside _ r.lo_mem).1)
    (le_antisymm (inside _ r.hi_mem).2 (outside _ t.hi_mem).2)

theorem uniform_of_uncut (uncut : ∀ b ∈ set.boundaries, r.Uncut b) : r.Uniform set := by
  rintro c hc d hd ⟨t, ht, hct⟩
  exact ⟨t, ht, mem_of_uncut (fun b hb => uncut b (mem_boundaries.mpr ⟨t, ht, hb⟩)) hc hct hd⟩

/-- The pieces of two sets that are cut at the boundaries of either. -/
structure Aligned (columns label : CharSet) (aligned : CharSet × CharSet) : Prop where
  columns_wellFormed : aligned.1.WellFormed
  label_wellFormed : aligned.2.WellFormed
  mem_columns : ∀ c, c ∈ aligned.1 ↔ c ∈ columns
  mem_label : ∀ c, c ∈ aligned.2 ↔ c ∈ label
  uncut_columns : ∀ t, t ∈ aligned.1.ranges ∨ t ∈ aligned.2.ranges → ∀ b ∈ columns.boundaries, t.Uncut b
  uncut_label : ∀ t, t ∈ aligned.1.ranges ∨ t ∈ aligned.2.ranges → ∀ b ∈ label.boundaries, t.Uncut b
  isBoundary : ∀ t, t ∈ aligned.1.ranges ∨ t ∈ aligned.2.ranges → ∀ b, t.IsBoundary b →
    b ∈ columns.boundaries ∨ b ∈ label.boundaries

theorem aligned_align (hcolumns : columns.WellFormed) (hlabel : label.WellFormed) :
    Aligned columns label (columns.align label) := by
  rw [align]
  generalize hcuts : ((columns.boundaries ++ label.boundaries).mergeSort (· ≤ ·)).eraseReps = cuts
  have sorted : cuts.Pairwise (· ≤ ·) := hcuts ▸ (pairwise_lt_sorted _).imp le_of_lt
  have mem_cuts : ∀ b, b ∈ cuts ↔ b ∈ columns.boundaries ∨ b ∈ label.boundaries := fun b => by
    rw [← hcuts, mem_sorted, List.mem_append]
  have uncut : ∀ t, t ∈ cutRanges columns.ranges cuts ∨ t ∈ cutRanges label.ranges cuts → ∀ b ∈ cuts, t.Uncut b := by
    rintro t (ht | ht) b hb
    · exact uncut_of_mem_cutRanges hcolumns sorted ht hb
    · exact uncut_of_mem_cutRanges hlabel sorted ht hb
  have boundary : ∀ t, t ∈ cutRanges columns.ranges cuts ∨ t ∈ cutRanges label.ranges cuts → ∀ b, t.IsBoundary b →
      b ∈ columns.boundaries ∨ b ∈ label.boundaries := by
    rintro t (ht | ht) b hb
    · exact (isBoundary_of_mem_cutRanges ht hb).elim (mem_cuts b).mp fun h => .inl (mem_boundaries.mpr h)
    · exact (isBoundary_of_mem_cutRanges ht hb).elim (mem_cuts b).mp fun h => .inr (mem_boundaries.mpr h)
  exact {
    columns_wellFormed := ascending_cutRanges hcolumns cuts
    label_wellFormed := ascending_cutRanges hlabel cuts
    mem_columns := fun c => mem_cutRanges columns.ranges cuts
    mem_label := fun c => mem_cutRanges label.ranges cuts
    uncut_columns := fun t ht b hb => uncut t ht b ((mem_cuts b).mpr (.inl hb))
    uncut_label := fun t ht b hb => uncut t ht b ((mem_cuts b).mpr (.inr hb))
    isBoundary := boundary }

/-- No boundary of a piece cuts a piece. -/
theorem Aligned.uncut {aligned : CharSet × CharSet} (h : Aligned columns label aligned)
    (hr : r ∈ aligned.1.ranges ∨ r ∈ aligned.2.ranges) (ht : t ∈ aligned.1.ranges ∨ t ∈ aligned.2.ranges)
    (hb : t.IsBoundary c) : r.Uncut c :=
  (h.isBoundary t ht c hb).elim (h.uncut_columns r hr c) (h.uncut_label r hr c)

/-! ## Refining -/

/-- The columns with one of the pieces, unless it is there. -/
def takeOver (columns : CharSet) (r : CharRange) : CharSet :=
  if (columns.indexOf? r.lo).isNone then columns.insertApart r else columns

/-- What holds while the `pieces` of a label are taken over: nothing but pieces is added to the columns `before`. -/
structure TakingOver (before pieces columns : CharSet) : Prop where
  wellFormed : columns.WellFormed
  of_mem : ∀ t ∈ columns.ranges, t ∈ before.ranges ∨ t ∈ pieces.ranges
  mem_of_before : ∀ c ∈ before, c ∈ columns

section TakeOver
variable {before pieces : CharSet} (ascending : pieces.WellFormed)
include ascending

theorem takeOver_spec (hr : r ∈ pieces.ranges) (uniform : r.Uniform before) (h : TakingOver before pieces columns) :
    TakingOver before pieces (columns.takeOver r) ∧ ∀ c, c ∈ r ∨ c ∈ columns → c ∈ columns.takeOver r := by
  have first : (columns.indexOf? r.lo).isNone = true ↔ r.lo ∉ columns := by
    rw [← contains_iff, contains, Option.isNone_iff_eq_none, Option.not_isSome_iff_eq_none]
  rw [takeOver]
  split
  · rename_i new
    rw [first] at new
    have apart : ∀ s ∈ columns.ranges, s.overlaps r = false := by
      intro s hs
      refine Bool.eq_false_iff.mpr fun overlap => new ?_
      obtain ⟨c, hcs, hcr⟩ := CharRange.overlaps_iff.mp overlap
      rcases h.of_mem s hs with old | piece
      · exact h.mem_of_before _ (uniform c hcr _ r.lo_mem ⟨s, old, hcs⟩)
      · exact ⟨s, hs, ascending.eq_of_mem hr piece hcr hcs ▸ r.lo_mem⟩
    refine ⟨⟨h.wellFormed.insertApart r, fun t ht => ?_, fun c hc => ?_⟩, fun c => mem_insertApart.mpr⟩
    · rcases (mem_ranges_insertApart apart).mp ht with rfl | ht
      · exact .inr hr
      · exact h.of_mem t ht
    · exact mem_insertApart.mpr (.inr (h.mem_of_before c hc))
  · rename_i old
    rw [first, not_not] at old
    refine ⟨h, fun c hc => hc.elim (fun hc => ?_) id⟩
    obtain ⟨s, hs, lo⟩ := old
    rcases h.of_mem s hs with old | piece
    · exact h.mem_of_before c (uniform _ r.lo_mem c hc ⟨s, old, lo⟩)
    · exact ⟨s, hs, ascending.eq_of_mem hr piece r.lo_mem lo ▸ hc⟩

theorem foldl_takeOver_spec {rs : List CharRange} (hrs : ∀ r ∈ rs, r ∈ pieces.ranges)
    (uniform : ∀ r ∈ rs, r.Uniform before) (h : TakingOver before pieces columns) :
    TakingOver before pieces (rs.foldl takeOver columns) ∧
      ∀ c, (∃ r ∈ rs, c ∈ r) ∨ c ∈ columns → c ∈ rs.foldl takeOver columns := by
  induction rs generalizing columns with
  | nil => exact ⟨h, fun c hc => hc.elim (fun ⟨_, hr, _⟩ => absurd hr List.not_mem_nil) id⟩
  | cons r rs ih =>
    rw [List.forall_mem_cons] at hrs uniform
    obtain ⟨h, mem⟩ := takeOver_spec ascending hrs.1 uniform.1 h
    obtain ⟨h, mem'⟩ := ih hrs.2 uniform.2 h
    refine ⟨h, fun c hc => mem' c ?_⟩
    rw [List.exists_mem_cons_iff] at hc
    rcases hc with (hc | hc) | hc
    · exact .inr (mem c (.inl hc))
    · exact .inl hc
    · exact .inr (mem c (.inr hc))

end TakeOver

/-- The columns of some labels. -/
structure Elementary (columns : CharSet) (labels : List CharSet) : Prop where
  wellFormed : columns.WellFormed
  mem_iff : ∀ c, c ∈ columns ↔ ∃ label ∈ labels, c ∈ label
  uncut : ∀ r ∈ columns.ranges, ∀ label ∈ labels, ∀ b ∈ label.boundaries, r.Uncut b
  of_mem_boundaries : ∀ b ∈ columns.boundaries, ∃ label ∈ labels, b ∈ label.boundaries

namespace Elementary

theorem uniform (h : columns.Elementary labels) : ∀ r ∈ columns.ranges, ∀ label ∈ labels, r.Uniform label :=
  fun r hr label hl => uniform_of_uncut (h.uncut r hr label hl)

/-- **The columns have the boundaries of the labels.** -/
theorem mem_boundaries_iff (h : columns.Elementary labels) :
    c ∈ columns.boundaries ↔ ∃ label ∈ labels, c ∈ label.boundaries := by
  refine ⟨h.of_mem_boundaries c, ?_⟩
  rintro ⟨label, hl, hc⟩
  obtain ⟨s, hs, hc'⟩ := mem_boundaries.mp hc
  have column : ∀ d ∈ s, ∃ r ∈ columns.ranges, d ∈ r := fun d hd => (h.mem_iff d).mpr ⟨label, hl, s, hs, hd⟩
  rcases hc' with rfl | next
  · -- the column with the first character of `s` begins with it
    obtain ⟨r, hr, lo⟩ := column _ s.lo_mem
    have first : s.lo ≤ r.lo := (h.uncut r hr label hl _ hc).resolve_right (not_lt.mpr lo.2)
    exact mem_boundaries.mpr ⟨r, hr, .inl (le_antisymm first lo.1)⟩
  · -- and the one with its last character ends with it
    obtain ⟨r, hr, hi⟩ := column _ s.hi_mem
    have behind : s.hi < c := (le_iff_of_succ? next).mp le_rfl
    have last : r.hi < c := (h.uncut r hr label hl _ hc).resolve_left (not_le.mpr (hi.1.trans_lt behind))
    have same : r.hi = s.hi := le_antisymm (not_lt.mp fun lt => not_le.mpr last ((le_iff_of_succ? next).mpr lt)) hi.2
    exact mem_boundaries.mpr ⟨r, hr, .inr (same ▸ next)⟩

theorem refine (h : columns.Elementary labels) (hlabel : label.WellFormed) :
    (columns.refine label).Elementary (labels ++ [label]) := by
  have aligned := aligned_align h.wellFormed hlabel
  have refine_eq : columns.refine label =
      (columns.align label).2.ranges.foldl takeOver (columns.align label).1 := rfl
  rw [refine_eq]
  generalize columns.align label = parts at aligned
  have uniform : ∀ r ∈ parts.2.ranges, r.Uniform parts.1 := by
    intro r hr c hc d hd hcb
    rw [aligned.mem_columns] at hcb ⊢
    exact uniform_of_uncut (aligned.uncut_columns r (.inr hr)) c hc d hd hcb
  obtain ⟨taken, mem⟩ := foldl_takeOver_spec aligned.label_wellFormed (fun r hr => hr) uniform
    ⟨aligned.columns_wellFormed, fun t ht => .inl ht, fun c hc => hc⟩
  have split : ∀ p : CharSet → Prop, (∃ l ∈ labels ++ [label], p l) ↔ (∃ l ∈ labels, p l) ∨ p label := by
    simp only [List.mem_append, List.mem_singleton, or_and_right, exists_or, exists_eq_left, implies_true]
  refine ⟨taken.wellFormed, fun c => ?_, fun r hr => ?_, fun b hb => ?_⟩
  · rw [split, ← h.mem_iff, ← aligned.mem_columns, ← aligned.mem_label]
    constructor
    · rintro ⟨t, ht, hct⟩
      exact (taken.of_mem t ht).imp (fun ht => ⟨t, ht, hct⟩) fun ht => ⟨t, ht, hct⟩
    · rintro (hc | hc)
      · exact taken.mem_of_before c hc
      · exact mem c (.inl hc)
  · have part := taken.of_mem r hr
    intro l hl b hb
    rcases List.mem_append.mp hl with hl | hl
    · exact aligned.uncut_columns r part b (h.mem_boundaries_iff.mpr ⟨l, hl, hb⟩)
    · rw [List.mem_singleton.mp hl] at hb
      exact aligned.uncut_label r part b hb
  · obtain ⟨r, hr, hb⟩ := mem_boundaries.mp hb
    exact (split _).mpr ((aligned.isBoundary r (taken.of_mem r hr) b hb).imp_left (h.of_mem_boundaries b))

end Elementary

/-- **The elementary ranges of labels tell no characters apart that the labels do not tell apart.** -/
theorem elementary_elementary (h : ∀ label ∈ labels, label.WellFormed) : (elementary labels).Elementary labels := by
  have step : ∀ more : List CharSet, ∀ done columns, columns.Elementary done → (∀ label ∈ more, label.WellFormed) →
      (more.foldl CharSet.refine columns).Elementary (done ++ more) := by
    intro more
    induction more with
    | nil =>
      intro done columns h _
      rwa [List.append_nil]
    | cons label more ih =>
      intro done columns h wellFormed
      rw [List.forall_mem_cons] at wellFormed
      rw [List.append_cons]
      exact ih _ _ (h.refine wellFormed.1) wellFormed.2
  have empty : CharSet.empty.Elementary [] :=
    ⟨wellFormed_empty, fun c => iff_of_false not_mem_empty (fun ⟨_, h, _⟩ => List.not_mem_nil h),
      fun _ hr => absurd hr List.not_mem_nil, fun _ hb => absurd hb List.not_mem_nil⟩
  exact step labels [] _ empty h

end CharSet
end TableParsing
