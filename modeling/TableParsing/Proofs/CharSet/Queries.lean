import TableParsing.Proofs.CharSet.Search

/-! # Queries about characters

A set tells at which range a character stands, whether it shares a character with another set, and whether it has all
characters of another set.  None of the answers is found by going through characters: the range of a character is looked
up, what two sets share is found by going along both of them, and what a set lacks by taking its ranges out of the other
one.  **As long as the ranges ascend, the answers are true** (`truthful_of_wellFormed`), whether ranges touch or not.

Going along two lists of ranges, the range that ends first is left behind.  It comes before the range that it is
compared with, and so before all that follow that one: no later range meets it (`meets_cons_iff_of_before`). -/

namespace TableParsing

variable {ranges others : List CharRange} {r s : CharRange} {c : Char} {i j : Nat}

/-- Of two ranges that do not overlap, the one that ends first comes before the other one. -/
theorem CharRange.before_of_hi_lt (apart : r.overlaps s = false) (ends : r.hi < s.hi) : r.Before s := by
  refine (CharRange.before_or_before apart).resolve_right fun behind => ?_
  have later : s.hi < r.hi := behind.trans_le r.lo_le_hi
  exact lt_asymm ends later

/-- What comes before the first of some ascending ranges comes before all of them. -/
theorem Ascending.before_of_before (h : Ascending (s :: ranges)) (before : r.Before s) :
    ∀ t ∈ s :: ranges, r.Before t := by
  obtain ⟨first, -⟩ := List.pairwise_cons.mp h
  intro t ht
  rcases List.mem_cons.mp ht with rfl | ht
  · exact before
  · have behind : s.hi < t.lo := first t ht
    exact before.trans_le (s.lo_le_hi.trans (le_of_lt behind))

/-! ## Common characters -/

/-- Whether a character lies in ranges of both lists. -/
def Meets (ranges others : List CharRange) : Prop := ∃ r ∈ ranges, ∃ s ∈ others, ∃ c, c ∈ r ∧ c ∈ s

theorem meets_comm : Meets ranges others ↔ Meets others ranges := by
  have turn : ∀ {ranges others}, Meets ranges others → Meets others ranges := by
    rintro ranges others ⟨r, hr, s, hs, c, hcr, hcs⟩
    exact ⟨s, hs, r, hr, c, hcs, hcr⟩
  exact ⟨turn, turn⟩

theorem not_meets_nil : ¬Meets [] others := fun ⟨_, hr, _⟩ => List.not_mem_nil hr

theorem meets_cons_iff_of_before (before : ∀ s ∈ others, r.Before s) :
    Meets (r :: ranges) others ↔ Meets ranges others := by
  constructor
  · rintro ⟨t, ht, s, hs, c, hct, hcs⟩
    rcases List.mem_cons.mp ht with rfl | ht
    · exact absurd hcs ((before s hs).apart c hct)
    · exact ⟨t, ht, s, hs, c, hct, hcs⟩
  · rintro ⟨t, ht, rest⟩
    exact ⟨t, List.mem_cons_of_mem _ ht, rest⟩

namespace CharSet
variable {set other : CharSet}

/-- **Going along two lists finds a common character if there is one.** -/
theorem meet_iff (h : Ascending ranges) (h' : Ascending others) : meet ranges others = true ↔ Meets ranges others := by
  fun_induction meet ranges others with
  | case1 r ranges s others overlap =>
    obtain ⟨c, hr, hs⟩ := CharRange.overlaps_iff.mp overlap
    exact iff_of_true rfl ⟨r, List.mem_cons_self, s, List.mem_cons_self, c, hr, hs⟩
  | case2 r ranges s others apart ends ih =>
    have before : r.Before s := CharRange.before_of_hi_lt (Bool.eq_false_iff.mpr apart) ends
    rw [meets_cons_iff_of_before (h'.before_of_before before)]
    exact ih (List.pairwise_cons.mp h).2 h'
  | case3 r ranges s others apart ends ih =>
    -- the second range ends first, or both end with the same character, and then they would overlap
    have apart : r.overlaps s = false := Bool.eq_false_iff.mpr apart
    have before : s.Before r := (CharRange.before_or_before apart).resolve_left fun before =>
      ends (before.trans_le s.lo_le_hi)
    rw [meets_comm, meets_cons_iff_of_before (h.before_of_before before), meets_comm]
    exact ih h (List.pairwise_cons.mp h').2
  | case4 others => exact iff_of_false Bool.false_ne_true not_meets_nil
  | case5 r ranges => exact iff_of_false Bool.false_ne_true (mt meets_comm.mp not_meets_nil)

theorem intersects_iff (h : set.WellFormed) (h' : other.WellFormed) :
    set.intersects other = true ↔ ∃ c, c ∈ set ∧ c ∈ other := by
  rw [intersects, meet_iff h h']
  constructor
  · rintro ⟨r, hr, s, hs, c, hcr, hcs⟩
    exact ⟨c, ⟨r, hr, hcr⟩, s, hs, hcs⟩
  · rintro ⟨c, ⟨r, hr, hcr⟩, s, hs, hcs⟩
    exact ⟨r, hr, s, hs, c, hcr, hcs⟩

/-! ## Missing characters -/

/-- A range has characters, so a set without characters has no range. -/
theorem isEmpty_iff : set.isEmpty = true ↔ ∀ c, c ∉ set := by
  rw [isEmpty, List.isEmpty_iff]
  constructor
  · intro none c ⟨r, hr, _⟩
    rw [none] at hr
    exact List.not_mem_nil hr
  · intro lacks
    exact List.eq_nil_iff_forall_not_mem.mpr fun r hr => lacks r.lo ⟨r, hr, r.lo_mem⟩

theorem covers_iff (h : set.WellFormed) : set.covers other = true ↔ ∀ c ∈ other, c ∈ set := by
  rw [covers, isEmpty_iff]
  refine forall_congr' fun c => ?_
  rw [mem_diff h, not_and, not_not]

/-! ## The range of a character -/

/-- A character stands at one place at most. -/
theorem WellFormed.place_unique (h : set.WellFormed) (hi : set.ranges[i]? = some r) (hj : set.ranges[j]? = some s)
    (hr : c ∈ r) (hs : c ∈ s) : i = j := by
  obtain ⟨boundI, rfl⟩ := List.getElem?_eq_some_iff.mp hi
  obtain ⟨boundJ, rfl⟩ := List.getElem?_eq_some_iff.mp hj
  have ordered := List.pairwise_iff_getElem.mp h
  rcases Nat.lt_trichotomy i j with lt | same | gt
  · exact absurd hs ((ordered i j boundI boundJ lt).apart c hr)
  · exact same
  · exact absurd hr ((ordered j i boundJ boundI gt).apart c hs)

theorem WellFormed.indexOf?_eq_some_iff (h : set.WellFormed) :
    set.indexOf? c = some i ↔ ∃ r, set.ranges[i]? = some r ∧ c ∈ r := by
  refine ⟨exists_of_indexOf?, ?_⟩
  rintro ⟨r, hi, hr⟩
  cases found : set.indexOf? c with
  | none => exact absurd ⟨r, List.mem_of_getElem? hi, hr⟩ (indexOf?_eq_none_iff.mp found)
  | some j =>
    obtain ⟨s, hj, hs⟩ := exists_of_indexOf? found
    rw [h.place_unique hj hi hs hr]

/-! ## All queries -/

/-- Whether the queries say of two sets what holds of their characters. -/
structure Truthful (set other : CharSet) : Prop where
  /-- The place is that of the only range with the character. -/
  indexOf?_eq_some_iff : ∀ c i, set.indexOf? c = some i ↔
    ∃ r, set.ranges[i]? = some r ∧ c ∈ r ∧ ∀ (j : Nat) s, set.ranges[j]? = some s → c ∈ s → j = i
  indexOf?_eq_none_iff : ∀ c, set.indexOf? c = none ↔ ∀ r ∈ set.ranges, c ∉ r
  /-- Bisection comes to the same place. -/
  indexOf?_eq_bisectIndex? : ∀ c, set.indexOf? c = set.bisectIndex? c
  contains_iff : ∀ c, set.contains c = true ↔ c ∈ set
  intersects_iff : set.intersects other = true ↔ ∃ c, c ∈ set ∧ c ∈ other
  covers_iff : set.covers other = true ↔ ∀ c ∈ other, c ∈ set

/-- **Of sets whose ranges ascend all queries tell the truth.** -/
theorem truthful_of_wellFormed (h : set.WellFormed) (h' : other.WellFormed) : set.Truthful other where
  indexOf?_eq_some_iff c i := by
    rw [h.indexOf?_eq_some_iff]
    constructor
    · rintro ⟨r, hi, hr⟩
      exact ⟨r, hi, hr, fun j s hj hs => h.place_unique hj hi hs hr⟩
    · rintro ⟨r, hi, hr, -⟩
      exact ⟨r, hi, hr⟩
  indexOf?_eq_none_iff c := by
    rw [CharSet.indexOf?_eq_none_iff, mem_iff]
    simp only [not_exists, not_and]
  indexOf?_eq_bisectIndex? := h.indexOf?_eq_bisectIndex?
  contains_iff _ := CharSet.contains_iff
  intersects_iff := CharSet.intersects_iff h h'
  covers_iff := CharSet.covers_iff h

/-- Short ranges that touch, beside a long one: the short ones are left behind until one reaches the long one. -/
theorem truthful_of_wellFormed_touching :
    let short : CharSet := ⟨[.between 'a' 'c', .between 'd' 'f', .between 'g' 'g', .between 'i' 'k', .between 'x' 'z']⟩
    let long : CharSet := ⟨[.single 'h', .between 'j' 'y']⟩
    short.WellFormed ∧ long.WellFormed ∧ short.Truthful long ∧ short.indexOf? 'g' = some 2 ∧ short.indexOf? 'h' = none ∧
    (∃ c, c ∈ short ∧ c ∈ long) ∧ ¬∀ c ∈ long, c ∈ short := by
  intro short long
  have wellFormed : short.WellFormed := by
    unfold WellFormed Ascending CharRange.Before
    decide
  have wellFormed' : long.WellFormed := by
    unfold WellFormed Ascending CharRange.Before
    decide
  have truthful := truthful_of_wellFormed wellFormed wellFormed'
  have common : short.intersects long = true := by decide +kernel
  have missing : short.covers long = false := by decide +kernel
  exact ⟨wellFormed, wellFormed', truthful, by decide, by decide, truthful.intersects_iff.mp common,
    mt truthful.covers_iff.mpr (Bool.eq_false_iff.mp missing)⟩

end CharSet
end TableParsing
