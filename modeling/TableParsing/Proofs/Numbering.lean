import TableParsing.Numbering

/-! # Members of numberings

What a numbering is about is the list of its elements: no element stands there twice, and an element that
is inserted stands there afterwards, **behind all that were there before**. -/

namespace TableParsing
namespace Numbering

variable {α : Type} [DecidableEq α] [Hashable α] (numbering : Numbering α)

theorem mem_toList_iff {a : α} : a ∈ numbering.toList ↔ ∃ i : Nat, numbering.elements[i]? = some a := by
  rw [toList, Array.mem_toList_iff, Array.mem_iff_getElem?]

theorem isSome_number?_iff {a : α} : (numbering.number? a).isSome ↔ a ∈ numbering.toList := by
  rw [mem_toList_iff, Option.isSome_iff_exists]
  exact exists_congr fun i => numbering.number?_eq_some_iff

theorem number?_eq_none_iff {a : α} : numbering.number? a = none ↔ a ∉ numbering.toList := by
  rw [← isSome_number?_iff, Bool.not_eq_true, Option.isSome_eq_false_iff, Option.isNone_iff_eq_none]

/-- An element has one number. -/
theorem elements_inj {a : α} {i j : Nat} (hi : numbering.elements[i]? = some a)
    (hj : numbering.elements[j]? = some a) : i = j := by
  rw [← number?_eq_some_iff] at hi hj
  exact Option.some.inj (hi.symm.trans hj)

theorem nodup_toList : numbering.toList.Nodup := by
  refine List.nodup_iff_pairwise_ne.mpr (List.pairwise_iff_getElem.mpr ?_)
  intro i j hi hj hlt he
  have h : i = j := numbering.elements_inj (a := numbering.toList[i])
    (by rw [← Array.getElem?_toList]; exact List.getElem?_eq_getElem hi)
    (by rw [← Array.getElem?_toList, he]; exact List.getElem?_eq_getElem hj)
  omega

theorem length_toList : numbering.toList.length = numbering.elements.size := rfl

/-- The number of a member is a place where it stands. -/
theorem getElem?_numberOf {a : α} (h : a ∈ numbering.toList) :
    numbering.elements[numbering.numberOf a]? = some a := by
  obtain ⟨i, hi⟩ := Option.isSome_iff_exists.mp (numbering.isSome_number?_iff.mpr h)
  rw [numberOf, hi]
  exact numbering.number?_eq_some_iff.mp hi

theorem numberOf_eq {a : α} {i : Nat} (h : numbering.elements[i]? = some a) :
    numbering.numberOf a = i :=
  numbering.elements_inj
    (numbering.getElem?_numberOf (numbering.mem_toList_iff.mpr ⟨i, h⟩)) h

theorem numberOf_of_not_mem {a : α} (h : a ∉ numbering.toList) :
    numbering.numberOf a = numbering.elements.size := by
  rw [numberOf, numbering.number?_eq_none_iff.mpr h]
  rfl

/-- No other element has the number of a member. -/
theorem numberOf_inj {a b : α} (ha : a ∈ numbering.toList)
    (h : numbering.numberOf a = numbering.numberOf b) : a = b := by
  have there := numbering.getElem?_numberOf ha
  by_cases hb : b ∈ numbering.toList
  · rw [h, numbering.getElem?_numberOf hb] at there
    exact (Option.some.inj there).symm
  · rw [h, numbering.numberOf_of_not_mem hb, Array.getElem?_eq_none (Nat.le_refl _)] at there
    cases there

theorem numberOf_lt {a : α} (h : a ∈ numbering.toList) : numbering.numberOf a < numbering.size :=
  (Array.getElem?_eq_some_iff.mp (numbering.getElem?_numberOf h)).1

/-! ## Insertion -/

theorem toList_insert_of_mem {a : α} (h : a ∈ numbering.toList) :
    (numbering.insert a).toList = numbering.toList := by
  rw [toList, elements_insert, if_pos (numbering.isSome_number?_iff.mpr h)]
  rfl

theorem toList_insert_of_not_mem {a : α} (h : a ∉ numbering.toList) :
    (numbering.insert a).toList = numbering.toList ++ [a] := by
  rw [toList, elements_insert, if_neg (fun hs => h (numbering.isSome_number?_iff.mp hs)),
    Array.toList_push]
  rfl

theorem mem_insert {a b : α} :
    b ∈ (numbering.insert a).toList ↔ b ∈ numbering.toList ∨ b = a := by
  by_cases h : a ∈ numbering.toList
  · rw [numbering.toList_insert_of_mem h]
    exact ⟨.inl, fun hb => hb.elim id fun he => he ▸ h⟩
  · rw [numbering.toList_insert_of_not_mem h, List.mem_append, List.mem_singleton]

theorem toList_prefix_insert (a : α) : numbering.toList <+: (numbering.insert a).toList := by
  by_cases h : a ∈ numbering.toList
  · exact numbering.toList_insert_of_mem h ▸ List.prefix_refl _
  · rw [numbering.toList_insert_of_not_mem h]
    exact List.prefix_append _ _

theorem mem_insertAll {as : List α} {b : α} :
    b ∈ (numbering.insertAll as).toList ↔ b ∈ numbering.toList ∨ b ∈ as := by
  induction as generalizing numbering with
  | nil => simp [insertAll]
  | cons a as ih =>
    have step : numbering.insertAll (a :: as) = (numbering.insert a).insertAll as := rfl
    rw [step, ih, mem_insert, List.mem_cons, or_assoc]

theorem toList_prefix_insertAll (as : List α) :
    numbering.toList <+: (numbering.insertAll as).toList := by
  induction as generalizing numbering with
  | nil => exact List.prefix_refl _
  | cons a as ih => exact (numbering.toList_prefix_insert a).trans (ih (numbering.insert a))

theorem mem_ofList {as : List α} {b : α} : b ∈ (ofList as).toList ↔ b ∈ as := by
  rw [ofList, mem_insertAll]
  simp [empty, toList]

theorem toList_insertAll_of_nodup {as : List α} (nodup : (numbering.toList ++ as).Nodup) :
    (numbering.insertAll as).toList = numbering.toList ++ as := by
  induction as generalizing numbering with
  | nil => exact (List.append_nil _).symm
  | cons a as ih =>
    have new : a ∉ numbering.toList := fun ha => (List.nodup_append.mp nodup).2.2 a ha a List.mem_cons_self rfl
    have step : numbering.insertAll (a :: as) = (numbering.insert a).insertAll as := rfl
    rw [List.append_cons, ← numbering.toList_insert_of_not_mem new] at nodup ⊢
    rw [step]
    exact ih _ nodup

/-- Different elements are numbered by their places. -/
theorem toList_ofList_of_nodup {as : List α} (nodup : as.Nodup) : (ofList as).toList = as :=
  toList_insertAll_of_nodup empty nodup

theorem elements_ofList_singleton (a : α) : (ofList [a]).elements = #[a] := by
  have new : a ∉ (empty : Numbering α).toList := List.not_mem_nil
  have single : (ofList [a]).toList = [a] := toList_insert_of_not_mem empty new
  exact Array.toList_inj.mp single

/-- A numbering with more members keeps the numbers. -/
theorem getElem?_of_prefix {numbering other : Numbering α} {a : α} {i : Nat}
    (h : numbering.toList <+: other.toList) (hi : numbering.elements[i]? = some a) :
    other.elements[i]? = some a := by
  rw [← Array.getElem?_toList] at hi ⊢
  obtain ⟨t, ht⟩ := h
  have more : other.elements.toList = numbering.elements.toList ++ t := ht.symm
  rw [more, List.getElem?_append_left (List.getElem?_eq_some_iff.mp hi).1]
  exact hi

end Numbering
end TableParsing
