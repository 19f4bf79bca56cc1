import TableParsing.Proofs.CharSet.Basic

/-! # Sets in their shortest form

Insertion melts ranges that touch, so the ranges of a set that was made by insertion are **gapped**: between any two of
them there is a character that is in neither.  Such a set is made anew by inserting its ranges in order
(`foldl_insert_ranges`).

The ranges of a gapped set are the **longest runs** of its characters (`mem_ranges_iff_isRun`), so there is one gapped set
for given characters (`eq_of_gapped`).  Taking characters away leaves a gap where they were. -/

namespace TableParsing

/-- Whether each range comes before all that follow it, with a character between them. -/
def Gapped (ranges : List CharRange) : Prop := ranges.Pairwise fun r s => ∃ c, r.hi < c ∧ c < s.lo

variable {ranges rest holes : List CharRange} {r s t : CharRange} {c : Char}

namespace CharRange

theorem touches_eq_false_iff : s.touches r = false ↔ (∃ c, s.hi < c ∧ c < r.lo) ∨ ∃ c, r.hi < c ∧ c < s.lo := by
  rw [← Bool.not_eq_true, touches_iff]
  simp only [← not_or, not_forall, not_not, exists_or]

instance : Std.Symm fun r s : CharRange => r.touches s = false :=
  ⟨fun r s h => touches_comm r s ▸ h⟩

end CharRange

theorem Gapped.ascending (h : Gapped ranges) : Ascending ranges := h.imp fun ⟨_, hr, hs⟩ => hr.trans hs

/-- Gapped ranges are ascending ranges of which no two touch. -/
theorem gapped_iff : Gapped ranges ↔
    Ascending ranges ∧ ∀ r ∈ ranges, ∀ s ∈ ranges, r ≠ s → r.touches s = false := by
  constructor
  · intro h
    have apart : ranges.Pairwise fun r s => r.touches s = false :=
      h.imp fun gap => CharRange.touches_eq_false_iff.mpr (.inl gap)
    exact ⟨h.ascending, fun r hr s hs ne => apart.forall hr hs ne⟩
  · rintro ⟨h, apart⟩
    refine h.imp_of_mem fun {r s} hr hs before => ?_
    have ne : r ≠ s := fun same => irrefl s (same ▸ before)
    refine (CharRange.touches_eq_false_iff.mp (apart r hr s hs ne)).resolve_right fun ⟨c, hs, hr⟩ => ?_
    exact absurd ((s.lo_le_hi.trans_lt (hs.trans hr)).trans_le r.lo_le_hi) (not_lt.mpr (le_of_lt before))

/-- **Insertion leaves no two ranges that touch.** -/
theorem gapped_place (h : Gapped ranges) : Gapped (CharSet.place CharRange.touches r ranges) := by
  induction ranges generalizing r with
  | nil => exact List.pairwise_singleton ..
  | cons s rest ih =>
    obtain ⟨first, h⟩ := List.pairwise_cons.mp h
    rw [CharSet.place]
    split
    · exact ih h
    · rename_i apart
      have apart := CharRange.touches_eq_false_iff.mp (Bool.eq_false_iff.mpr apart)
      split
      · rename_i before
        refine List.pairwise_cons.mpr ⟨fun t ht => ?_, ih h⟩
        -- what is placed behind `s` begins in the new range or in an old one
        rcases (mem_place fun _ _ h => h).mp ⟨t, ht, t.lo_mem⟩ with lo | ⟨u, hu, lo⟩
        · rcases apart with ⟨c, hs, hr⟩ | ⟨c, hr, hs⟩
          · exact ⟨c, hs, lt_of_lt_of_le hr lo.1⟩
          · exact absurd (hr.trans hs) (not_lt.mpr (s.lo_le_hi.trans (le_of_lt before) |>.trans r.lo_le_hi))
        · obtain ⟨c, hs, hu⟩ := first u hu
          exact ⟨c, hs, lt_of_lt_of_le hu lo.1⟩
      · rename_i notBefore
        obtain ⟨c, hr, hs⟩ := apart.resolve_left (not_exists.mpr fun c h => notBefore (h.1.trans h.2))
        refine List.pairwise_cons.mpr ⟨fun t ht => ?_, List.pairwise_cons.mpr ⟨first, h⟩⟩
        rcases List.mem_cons.mp ht with rfl | ht
        · exact ⟨c, hr, hs⟩
        · obtain ⟨d, hd, ht⟩ := first t ht
          exact ⟨c, hr, hs.trans (lt_of_le_of_lt s.lo_le_hi (hd.trans ht))⟩

/-- A range behind a gap is placed last. -/
theorem place_of_gap (behind : ∀ s ∈ ranges, ∃ c, s.hi < c ∧ c < r.lo) :
    CharSet.place CharRange.touches r ranges = ranges ++ [r] := by
  induction ranges with
  | nil => rfl
  | cons s rest ih =>
    obtain ⟨c, hs, hr⟩ := behind s List.mem_cons_self
    have apart : s.touches r = false := CharRange.touches_eq_false_iff.mpr (.inl ⟨c, hs, hr⟩)
    rw [CharSet.place, if_neg (by rw [apart]; exact Bool.false_ne_true), if_pos (hs.trans hr),
      ih fun t ht => behind t (List.mem_cons_of_mem _ ht)]
    rfl

/-! ## Taking characters away -/

/-- What is left of a range has the holes for gaps. -/
theorem gapped_minus (h : Ascending holes) : Gapped (r.minus holes) := by
  induction holes generalizing r with
  | nil => exact List.pairwise_singleton ..
  | cons hole holes ih =>
    obtain ⟨-, h'⟩ := List.pairwise_cons.mp h
    rw [CharRange.minus]
    split
    · refine List.pairwise_append.mpr ⟨?_, ?_, ?_⟩
      · cases r.below? hole.lo <;> simp
      · split
        · exact ih h'
        · exact .nil
      · intro s hs t ht
        obtain ⟨-, hi⟩ := CharRange.below?_eq_some (Option.mem_toList.mp hs)
        split at ht
        · rename_i rest hrest
          obtain ⟨-, lo⟩ := CharRange.above?_eq_some hrest
          have behind : hole.hi < t.lo := (lo t.lo).mp ((CharRange.mem_minus h').mp ⟨t, ht, t.lo_mem⟩).1.1
          exact ⟨hole.lo, (hi s.hi).mp le_rfl, hole.lo_le_hi.trans_lt behind⟩
        · cases ht
    · exact ih h'

namespace CharSet
variable {set other : CharSet}

theorem gapped_insert (h : Gapped set.ranges) (r : CharRange) : Gapped (set.insert r).ranges := gapped_place h

theorem insert_ranges_ne_nil (set : CharSet) (r : CharRange) : (set.insert r).ranges ≠ [] := by
  obtain ⟨t, ht, -⟩ := mem_insert.mpr (.inl r.lo_mem : r.lo ∈ r ∨ r.lo ∈ set)
  exact List.ne_nil_of_mem ht

/-- Ranges that keep their gaps are inserted one behind the other. -/
theorem foldl_insert_of_gapped (h : Gapped (set.ranges ++ rest)) : rest.foldl insert set = ⟨set.ranges ++ rest⟩ := by
  induction rest generalizing set with
  | nil => rw [List.append_nil, List.foldl_nil]
  | cons r rest ih =>
    have behind : ∀ s ∈ set.ranges, ∃ c, s.hi < c ∧ c < r.lo := fun s hs =>
      (List.pairwise_append.mp h).2.2 s hs r List.mem_cons_self
    have placed : set.insert r = ⟨set.ranges ++ [r]⟩ := congrArg CharSet.mk (place_of_gap behind)
    rw [List.append_cons] at h ⊢
    rw [List.foldl_cons, placed]
    exact ih h

/-- **A gapped set is made anew from its ranges.** -/
theorem foldl_insert_ranges (h : Gapped set.ranges) : set.ranges.foldl insert empty = set := foldl_insert_of_gapped h

theorem gapped_union (h : Gapped set.ranges) (other : CharSet) : Gapped (set.union other).ranges := by
  rw [union]
  exact List.foldlRecOn (motive := fun set => Gapped set.ranges) other.ranges insert h fun _ h r _ => gapped_insert h r

theorem gapped_diff (h : Gapped set.ranges) (h' : other.WellFormed) : Gapped (set.diff other).ranges := by
  refine List.pairwise_flatMap.mpr ⟨fun r _ => gapped_minus h', h.imp fun {r s} ⟨c, hr, hs⟩ t ht u hu => ?_⟩
  have front : t.hi ∈ r := ((CharRange.mem_minus h').mp ⟨t, ht, t.hi_mem⟩).1
  have back : u.lo ∈ s := ((CharRange.mem_minus h').mp ⟨u, hu, u.lo_mem⟩).1
  exact ⟨c, front.2.trans_lt hr, hs.trans_le back.1⟩

theorem gapped_complement (h : set.WellFormed) : Gapped set.complement.ranges :=
  gapped_diff (gapped_insert .nil _) h

end CharSet

/-! ## Longest runs -/

/-- Whether the range is a longest run of the set: the set has its characters, and not those next to it. -/
structure CharRange.IsRun (r : CharRange) (set : CharSet) : Prop where
  mem : ∀ c ∈ r, c ∈ set
  not_mem_front : ∀ c, predChar? r.lo = some c → c ∉ set
  not_mem_behind : ∀ c, r.hi.succ? = some c → c ∉ set

namespace CharSet
variable {set other : CharSet}

/-- The characters next to a range are in its gaps. -/
theorem isRun_of_mem_ranges (h : Gapped set.ranges) (hr : r ∈ set.ranges) : r.IsRun set := by
  have gap : ∀ s ∈ set.ranges, s ≠ r → (∃ d, s.hi < d ∧ d < r.lo) ∨ ∃ d, r.hi < d ∧ d < s.lo :=
    fun s hs ne => CharRange.touches_eq_false_iff.mp ((gapped_iff.mp h).2 s hs r hr ne)
  refine ⟨fun c hc => ⟨r, hr, hc⟩, ?_, ?_⟩
  · rintro c previous ⟨s, hs, hc⟩
    have front : c < r.lo := (le_iff_of_predChar? previous).mp le_rfl
    rcases gap s hs fun same => not_lt.mpr (same ▸ hc).1 front with ⟨d, hd, hd'⟩ | ⟨d, hd, hd'⟩
    · exact not_lt.mpr (((le_iff_of_predChar? previous).mpr hd').trans hc.2) hd
    · exact not_lt.mpr (r.lo_le_hi.trans (le_of_lt hd)) (hd'.trans_le (hc.1.trans (le_of_lt front)))
  · rintro c next ⟨s, hs, hc⟩
    have behind : r.hi < c := (le_iff_of_succ? next).mp le_rfl
    rcases gap s hs fun same => not_lt.mpr (same ▸ hc).2 behind with ⟨d, hd, hd'⟩ | ⟨d, hd, hd'⟩
    · exact not_lt.mpr (r.lo_le_hi.trans (le_of_lt (behind.trans_le hc.2))) (hd.trans hd')
    · exact not_lt.mpr ((le_iff_of_succ? next).mpr hd) (hd'.trans_le hc.1)

end CharSet

namespace CharRange.IsRun
variable {set other : CharSet} (hr : r.IsRun set) (hs : s.IsRun set) (hcr : c ∈ r) (hcs : c ∈ s)
include hr hs hcr hcs

theorem hi_le : r.hi ≤ s.hi := by
  cases next : s.hi.succ? with
  | none => exact le_of_succ?_eq_none next
  | some n =>
    refine not_lt.mp fun lt => hs.not_mem_behind n next (hr.mem n ⟨?_, (le_iff_of_succ? next).mpr lt⟩)
    exact hcr.1.trans (hcs.2.trans (le_of_lt ((le_iff_of_succ? next).mp le_rfl)))

theorem lo_le : s.lo ≤ r.lo := by
  cases previous : predChar? s.lo with
  | none => exact le_of_predChar?_eq_none previous
  | some p =>
    refine not_lt.mp fun lt => hs.not_mem_front p previous (hr.mem p ⟨(le_iff_of_predChar? previous).mpr lt, ?_⟩)
    exact (le_of_lt ((le_iff_of_predChar? previous).mp le_rfl)).trans (hcs.1.trans hcr.2)

/-- A character is in one run at most. -/
theorem eq_of_mem : r = s :=
  CharRange.ext (le_antisymm (lo_le hs hr hcs hcr) (lo_le hr hs hcr hcs))
    (le_antisymm (hi_le hr hs hcr hcs) (hi_le hs hr hcs hcr))

end CharRange.IsRun

namespace CharSet
variable {set other : CharSet}

/-- **The ranges of a gapped set are its longest runs.** -/
theorem mem_ranges_iff_isRun (h : Gapped set.ranges) : r ∈ set.ranges ↔ r.IsRun set := by
  refine ⟨isRun_of_mem_ranges h, fun run => ?_⟩
  obtain ⟨s, hs, lo⟩ := run.mem r.lo r.lo_mem
  exact run.eq_of_mem (isRun_of_mem_ranges h hs) r.lo_mem lo ▸ hs

/-- **Gapped sets are equal if they have the same characters.** -/
theorem eq_of_gapped (h : Gapped set.ranges) (h' : Gapped other.ranges) (same : ∀ c, c ∈ set ↔ c ∈ other) :
    set = other := by
  have runs : ∀ r : CharRange, r.IsRun set ↔ r.IsRun other := by
    intro r
    constructor
    · exact fun ⟨mem, front, behind⟩ => ⟨fun c hc => (same c).mp (mem c hc),
        fun c hc h => front c hc ((same c).mpr h), fun c hc h => behind c hc ((same c).mpr h)⟩
    · exact fun ⟨mem, front, behind⟩ => ⟨fun c hc => (same c).mpr (mem c hc),
        fun c hc h => front c hc ((same c).mp h), fun c hc h => behind c hc ((same c).mp h)⟩
  refine WellFormed.eq_of_mem_ranges_iff h.ascending h'.ascending fun r => ?_
  rw [mem_ranges_iff_isRun h, mem_ranges_iff_isRun h', runs]

end CharSet
end TableParsing
