import TableParsing.Proofs.Bisection
import TableParsing.Proofs.CharSet.Basic

/-! # Places found by bisection

A set looks through its ranges from the front.  Since they ascend, **bisection comes to the same places**
(`WellFormed.searchable`): to the one range that may have a character, and to the first range that stays not in front of a
new one.  From there on the new range takes up ranges as long as it joins the next one, and those behind stay as they
are. -/

namespace TableParsing

variable {ranges front rest : List CharRange} {r s : CharRange} {c : Char}

namespace CharSet

/-- The position of the range that holds `c`, found by bisection. -/
def bisectIndex? (set : CharSet) (c : Char) : Option Nat :=
  let k := bisect (fun r => r.hi < c) set.ranges.toArray
  if set.ranges[k]?.any (·.contains c) then some k else none

/-- What `r` grows to while it joins the first range, and the ranges that are left then. -/
def takeUp (joins : CharRange → CharRange → Bool) (r : CharRange) : List CharRange → CharRange × List CharRange
  | [] => (r, [])
  | s :: rest => if joins s r then takeUp joins (s.hull r) rest else (r, s :: rest)

/-- The list with `r` behind the ranges that end in front of it and that it does not join, found by bisection. -/
def bisectPlace (joins : CharRange → CharRange → Bool) (r : CharRange) (ranges : List CharRange) : List CharRange :=
  let k := bisect (fun s => s.hi < r.lo && !joins s r) ranges.toArray
  let (grown, rest) := takeUp joins r (ranges.drop k)
  ranges.take k ++ grown :: rest

/-- Whether bisection finds the places where the set looks for characters and puts ranges. -/
structure Searchable (set : CharSet) : Prop where
  indexOf? : ∀ c, set.indexOf? c = set.bisectIndex? c
  insert : ∀ r, (set.insert r).ranges = bisectPlace CharRange.touches r set.ranges
  insertApart : ∀ r, (set.insertApart r).ranges = bisectPlace CharRange.overlaps r set.ranges

/-! ## The end of the front -/

/-- The ranges up to the place that bisection finds pass, and the next one does not. -/
theorem bisect_splits {passes : CharRange → Bool}
    (sorted : ranges.Pairwise fun a b => passes b = true → passes a = true) :
    (∀ s ∈ ranges.take (bisect passes ranges.toArray), passes s = true) ∧
      ∀ s, ranges[bisect passes ranges.toArray]? = some s → passes s = false := by
  have passing := @lt_bisect_iff CharRange passes ranges.toArray sorted
  generalize bisect passes ranges.toArray = k at passing
  constructor
  · intro s hs
    obtain ⟨i, hi, rfl⟩ := List.mem_take_iff_getElem.mp hs
    have pass := (passing i).mp (by omega)
    rwa [List.getElem?_toArray, List.getElem?_eq_getElem (by omega), Option.any_some] at pass
  · intro s hs
    refine Bool.eq_false_iff.mpr fun pass => Nat.lt_irrefl k ((passing k).mpr ?_)
    rwa [List.getElem?_toArray, hs, Option.any_some]

/-! ## Looking for a character -/

theorem WellFormed.indexOf?_eq_bisectIndex? {set : CharSet} (h : set.WellFormed) (c : Char) :
    set.indexOf? c = set.bisectIndex? c := by
  have sorted : set.ranges.Pairwise fun a b => decide (b.hi < c) = true → decide (a.hi < c) = true := by
    refine h.imp fun {a b} before pass => decide_eq_true ?_
    exact (before.trans_le b.lo_le_hi).trans (of_decide_eq_true pass)
  obtain ⟨front, next⟩ := bisect_splits sorted
  rw [bisectIndex?]
  generalize bisect (fun r => decide (r.hi < c)) set.ranges.toArray = k at front next
  cases found : set.indexOf? c with
  | none =>
    rw [indexOf?_eq_none_iff] at found
    rw [if_neg]
    intro any
    obtain ⟨r, hr, hc⟩ := (Option.any_eq_true _ _).mp any
    exact found ⟨r, List.mem_of_getElem? hr, CharRange.contains_iff.mp hc⟩
  | some i =>
    obtain ⟨r, hr, hc⟩ := exists_of_indexOf? found
    obtain ⟨hi, rfl⟩ := List.getElem?_eq_some_iff.mp hr
    -- the ranges in front of the one with `c` end in front of `c`, and it does not
    have le : k ≤ i := by
      refine Nat.le_of_not_lt fun lt => ?_
      have before := of_decide_eq_true (front _ (List.mem_take_iff_getElem.mpr ⟨i, by omega, rfl⟩))
      exact not_lt.mpr hc.2 before
    have ge : i ≤ k := by
      refine Nat.le_of_not_lt fun lt => ?_
      have before : set.ranges[k].Before set.ranges[i] := List.pairwise_iff_getElem.mp h k i (by omega) hi lt
      have late := of_decide_eq_false (next _ (List.getElem?_eq_getElem (by omega)))
      exact late (before.trans_le hc.1)
    obtain rfl : k = i := Nat.le_antisymm le ge
    rw [hr, Option.any_some, if_pos (CharRange.contains_iff.mpr hc)]

/-! ## Putting a range -/

section Place
variable {joins : CharRange → CharRange → Bool}

/-- Ranges that `r` is put behind stay where they are. -/
theorem place_append (behind : ∀ s ∈ front, s.hi < r.lo ∧ joins s r = false) :
    place joins r (front ++ rest) = front ++ place joins r rest := by
  induction front with
  | nil => rfl
  | cons s front ih =>
    obtain ⟨⟨before, apart⟩, behind⟩ := List.forall_mem_cons.mp behind
    rw [List.cons_append, place, if_neg (by simp [apart]), if_pos before, ih behind, List.cons_append]

/-- A range that no other one ends in front of is put at the front. -/
theorem place_eq_takeUp (first : ∀ s ∈ ranges, r.lo ≤ s.hi) :
    place joins r ranges = (takeUp joins r ranges).1 :: (takeUp joins r ranges).2 := by
  induction ranges generalizing r with
  | nil => rfl
  | cons s rest ih =>
    obtain ⟨le, first⟩ := List.forall_mem_cons.mp first
    rw [place, takeUp]
    by_cases h : joins s r = true
    · rw [if_pos h, if_pos h]
      apply ih
      intro t ht
      rw [CharRange.lo_hull]
      exact (min_le_right s.lo r.lo).trans (first t ht)
    · rw [if_neg h, if_neg h, if_neg (not_lt.mpr le)]

/-- **Bisection finds the place of a range.**  A range that ends in front of `r` and joins it is the last one that does, so
those that bisection passes stand in front of all others. -/
theorem place_eq_bisectPlace (touching : ∀ s r, joins s r = true → s.touches r = true) (h : Ascending ranges)
    (r : CharRange) : place joins r ranges = bisectPlace joins r ranges := by
  have sorted : ranges.Pairwise fun a b =>
      (decide (b.hi < r.lo) && !joins b r) = true → (decide (a.hi < r.lo) && !joins a r) = true := by
    refine h.imp fun {a b} before pass => ?_
    obtain ⟨lt, -⟩ : b.hi < r.lo ∧ joins b r = false := by simpa using pass
    have first : b.lo < r.lo := b.lo_le_hi.trans_lt lt
    have apart : joins a r = false :=
      Bool.eq_false_iff.mpr fun joined => (CharRange.touches_iff.mp (touching a r joined) b.lo).1 ⟨before, first⟩
    simpa [apart] using lt_trans before first
  obtain ⟨front, next⟩ := bisect_splits sorted
  rw [bisectPlace]
  generalize bisect (fun s : CharRange => decide (s.hi < r.lo) && !joins s r) ranges.toArray = k at front next
  have behind : ∀ s ∈ ranges.take k, s.hi < r.lo ∧ joins s r = false := fun s hs => by simpa using front s hs
  have split : place joins r ranges = ranges.take k ++ place joins r (ranges.drop k) := by
    rw [← place_append behind, List.take_append_drop]
  rw [split]
  refine congrArg (ranges.take k ++ ·) ?_
  have h := h.sublist (List.drop_sublist k ranges)
  have head : (ranges.drop k).head? = ranges[k]? := List.head?_drop
  cases hd : ranges.drop k with
  | nil => rfl
  | cons s rest =>
    rw [hd] at h head
    obtain ⟨later, -⟩ := List.pairwise_cons.mp h
    have late : s.hi < r.lo → joins s r = true := by simpa using next s head.symm
    by_cases joined : joins s r = true
    · rw [place, takeUp, if_pos joined, if_pos joined]
      apply place_eq_takeUp
      intro t ht
      rw [CharRange.lo_hull]
      exact (min_le_left s.lo r.lo).trans (s.lo_le_hi.trans (le_of_lt ((later t ht).trans_le t.lo_le_hi)))
    · have le : r.lo ≤ s.hi := not_lt.mp (mt late joined)
      apply place_eq_takeUp
      rw [List.forall_mem_cons]
      exact ⟨le, fun t ht => le.trans (le_of_lt ((later t ht).trans_le t.lo_le_hi))⟩

end Place

/-- **Bisection finds all places in a set whose ranges ascend.** -/
theorem WellFormed.searchable {set : CharSet} (h : set.WellFormed) : set.Searchable where
  indexOf? := h.indexOf?_eq_bisectIndex?
  insert := place_eq_bisectPlace (fun _ _ touches => touches) h
  insertApart := place_eq_bisectPlace (fun _ _ => CharRange.touches_of_overlaps) h

end CharSet
end TableParsing
