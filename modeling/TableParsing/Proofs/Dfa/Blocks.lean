import Mathlib.Data.Finset.Card
import TableParsing.Dfa.Minimal
import TableParsing.Proofs.Fixpoint
import TableParsing.Proofs.Numbering

/-! # Blocks

A list puts its places into blocks: places with equal elements belong together.  All that matters of the elements is
which of them are equal (`Refines`), and `numberEqual` makes of all lists with the same blocks one list of numbers
(`numberEqual_congr`).

A round of minimisation refines the blocks.  A list with other blocks has more of them, and there are no more blocks
than places, so **the rounds end with blocks that a round does not change** (`stable_blocks`). -/

namespace TableParsing

section Lists
variable {α β γ : Type} {xs : List α} {ys : List β} {zs : List γ}

/-! ## Equal elements -/

/-- Whether the elements of `ys` are equal where those of `xs` are. -/
def Refines (xs : List α) (ys : List β) : Prop := ∀ i j : Nat, xs[i]? = xs[j]? → ys[i]? = ys[j]?

theorem Refines.trans (h : Refines xs ys) (h' : Refines ys zs) : Refines xs zs := fun i j same => h' i j (h i j same)

theorem mem_zip_iff {p : α × β} : p ∈ xs.zip ys ↔ ∃ i : Nat, xs[i]? = some p.1 ∧ ys[i]? = some p.2 := by
  simp only [List.mem_iff_getElem?, List.getElem?_zip_eq_some]

/-- **A refinement with no more elements has the same blocks.** -/
theorem Refines.symm_of_card_le [DecidableEq α] [DecidableEq β] (h : Refines xs ys) (length : xs.length = ys.length)
    (card : xs.toFinset.card ≤ ys.toFinset.card) : Refines ys xs := by
  -- each element of `xs` stands with one element of `ys` only, so there are as many pairs as elements of `xs`
  let pairs := (xs.zip ys).toFinset
  have fst : pairs.image Prod.fst = xs.toFinset := by
    ext a
    rw [Finset.mem_image, List.mem_toFinset, ← List.map_fst_zip (Nat.le_of_eq length), List.mem_map]
    simp only [pairs, List.mem_toFinset]
  have snd : pairs.image Prod.snd = ys.toFinset := by
    ext b
    rw [Finset.mem_image, List.mem_toFinset, ← List.map_snd_zip (Nat.le_of_eq length.symm), List.mem_map]
    simp only [pairs, List.mem_toFinset]
  have fst_inj : Set.InjOn Prod.fst (pairs : Set (α × β)) := by
    intro p hp q hq same
    obtain ⟨i, hx, hy⟩ := mem_zip_iff.mp (List.mem_toFinset.mp hp)
    obtain ⟨j, hx', hy'⟩ := mem_zip_iff.mp (List.mem_toFinset.mp hq)
    have same' := h i j (by rw [hx, hx', same])
    rw [hy, hy', Option.some.injEq] at same'
    exact Prod.ext same same'
  have snd_inj : Set.InjOn Prod.snd (pairs : Set (α × β)) := by
    refine Finset.card_image_iff.mp (Nat.le_antisymm Finset.card_image_le ?_)
    rw [snd, ← Finset.card_image_of_injOn fst_inj, fst]
    exact card
  intro i j same
  have place (i : Nat) : xs[i]? = none ↔ ys[i]? = none := by
    rw [List.getElem?_eq_none_iff, List.getElem?_eq_none_iff, length]
  cases hy : ys[i]? with
  | none => rw [(place i).mpr hy, (place j).mpr (same ▸ hy)]
  | some b =>
    obtain ⟨a, hx⟩ := Option.ne_none_iff_exists'.mp fun none => absurd ((place i).mp none) (by simp [hy])
    obtain ⟨a', hx'⟩ := Option.ne_none_iff_exists'.mp fun none => absurd ((place j).mp none) (by simp [← same, hy])
    have hp : (a, b) ∈ pairs := List.mem_toFinset.mpr (mem_zip_iff.mpr ⟨i, hx, hy⟩)
    have hq : (a', b) ∈ pairs := List.mem_toFinset.mpr (mem_zip_iff.mpr ⟨j, hx', same ▸ hy⟩)
    have fst : a = a' := congrArg Prod.fst (snd_inj hp hq rfl)
    rw [hx, hx', fst]

variable [DecidableEq α] [Hashable α] [DecidableEq β] [Hashable β]

/-! ## Numbers for elements -/

theorem length_numberEqual (xs : List α) : (numberEqual xs).length = xs.length := List.length_map ..

theorem getElem?_numberEqual (i : Nat) :
    (numberEqual xs)[i]? = xs[i]?.map (Numbering.ofList xs).numberOf := List.getElem?_map ..

theorem numberEqual_refines (xs : List α) : Refines (numberEqual xs) xs := by
  intro i j same
  rw [getElem?_numberEqual, getElem?_numberEqual] at same
  cases hi : xs[i]? with
  | none =>
    rw [hi] at same
    exact (Option.map_eq_none_iff.mp same.symm).symm
  | some a =>
    rw [hi, Option.map_some] at same
    obtain ⟨b, hj, number⟩ := Option.map_eq_some_iff.mp same.symm
    rw [hj, Numbering.numberOf_inj _ (Numbering.mem_ofList.mpr (List.mem_of_getElem? hj)) number]

theorem refines_numberEqual (xs : List α) : Refines xs (numberEqual xs) := by
  intro i j same
  rw [getElem?_numberEqual, getElem?_numberEqual, same]

/-- Elements that are equal in pairs are numbered in pairs. -/
theorem exists_pairs {numbering : Numbering α} {numbering' : Numbering β} {known pairs : List (α × β)}
    (h : numbering.toList = known.map Prod.fst) (h' : numbering'.toList = known.map Prod.snd)
    (same : ∀ p ∈ known ++ pairs, ∀ q ∈ known ++ pairs, p.1 = q.1 ↔ p.2 = q.2) :
    ∃ all, (numbering.insertAll (pairs.map Prod.fst)).toList = all.map Prod.fst ∧
      (numbering'.insertAll (pairs.map Prod.snd)).toList = all.map Prod.snd ∧ all ⊆ known ++ pairs := by
  induction pairs generalizing numbering numbering' known with
  | nil => exact ⟨known, h, h', List.subset_append_left ..⟩
  | cons p pairs ih =>
    have both : p.1 ∈ numbering.toList ↔ p.2 ∈ numbering'.toList := by
      have hp : p ∈ known ++ p :: pairs := List.mem_append_right _ List.mem_cons_self
      rw [h, h', List.mem_map, List.mem_map]
      exact exists_congr fun q => and_congr_right fun hq => same q (List.mem_append_left _ hq) p hp
    have step : numbering.insertAll ((p :: pairs).map Prod.fst) =
        (numbering.insert p.1).insertAll (pairs.map Prod.fst) := rfl
    have step' : numbering'.insertAll ((p :: pairs).map Prod.snd) =
        (numbering'.insert p.2).insertAll (pairs.map Prod.snd) := rfl
    rw [step, step']
    by_cases hp : p.1 ∈ numbering.toList
    · have sub : known ++ pairs ⊆ known ++ p :: pairs :=
        List.append_subset.mpr ⟨List.subset_append_left ..,
          fun q hq => List.mem_append_right _ (List.mem_cons_of_mem _ hq)⟩
      obtain ⟨all, hall, hall', hsub⟩ := ih ((numbering.toList_insert_of_mem hp).trans h)
        ((numbering'.toList_insert_of_mem (both.mp hp)).trans h') fun q hq q' hq' => same q (sub hq) q' (sub hq')
      exact ⟨all, hall, hall', fun q hq => sub (hsub hq)⟩
    · rw [List.append_cons] at same ⊢
      refine ih ?_ ?_ same
      · rw [numbering.toList_insert_of_not_mem hp, h, List.map_append]
        rfl
      · rw [numbering'.toList_insert_of_not_mem (mt both.mpr hp), h', List.map_append]
        rfl

/-- Elements that stand at the same place have the same number. -/
theorem numberOf_eq_of_mem_zip (length : xs.length = ys.length)
    (same : ∀ p ∈ xs.zip ys, ∀ q ∈ xs.zip ys, p.1 = q.1 ↔ p.2 = q.2) {p : α × β} (hp : p ∈ xs.zip ys) :
    (Numbering.ofList xs).numberOf p.1 = (Numbering.ofList ys).numberOf p.2 := by
  obtain ⟨all, hall, hall', sub⟩ := exists_pairs (rfl : (.empty : Numbering α).toList = _)
    (rfl : (.empty : Numbering β).toList = _) (show ∀ p ∈ [] ++ xs.zip ys, ∀ q ∈ [] ++ xs.zip ys, _ from same)
  rw [List.map_fst_zip (Nat.le_of_eq length)] at hall
  rw [List.map_snd_zip (Nat.le_of_eq length.symm)] at hall'
  have hxs : (Numbering.ofList xs).toList = all.map Prod.fst := hall
  have hys : (Numbering.ofList ys).toList = all.map Prod.snd := hall'
  obtain ⟨i, hx, -⟩ := mem_zip_iff.mp hp
  have known : p.1 ∈ all.map Prod.fst := hxs ▸ Numbering.mem_ofList.mpr (List.mem_of_getElem? hx)
  obtain ⟨q, hq, fst⟩ := List.mem_map.mp known
  have snd := (same q (sub hq) p hp).mp fst
  -- both are numbered with the place of their pair
  obtain ⟨k, hk⟩ := List.mem_iff_getElem?.mp hq
  have there : (Numbering.ofList xs).elements[k]? = some p.1 := by
    rw [← Array.getElem?_toList]
    exact (congrArg (·[k]?) hxs).trans (by rw [List.getElem?_map, hk, Option.map_some, fst])
  have there' : (Numbering.ofList ys).elements[k]? = some p.2 := by
    rw [← Array.getElem?_toList]
    exact (congrArg (·[k]?) hys).trans (by rw [List.getElem?_map, hk, Option.map_some, snd])
  rw [Numbering.numberOf_eq _ there, Numbering.numberOf_eq _ there']

/-- **The numbers depend on nothing but the blocks.** -/
theorem numberEqual_congr (length : xs.length = ys.length) (h : Refines xs ys) (h' : Refines ys xs) :
    numberEqual xs = numberEqual ys := by
  have same : ∀ p ∈ xs.zip ys, ∀ q ∈ xs.zip ys, p.1 = q.1 ↔ p.2 = q.2 := by
    intro p hp q hq
    obtain ⟨i, hx, hy⟩ := mem_zip_iff.mp hp
    obtain ⟨j, hx', hy'⟩ := mem_zip_iff.mp hq
    have forward := h i j
    have backward := h' i j
    rw [hx, hx', hy, hy', Option.some.injEq, Option.some.injEq] at forward backward
    exact ⟨forward, backward⟩
  refine List.ext_getElem? fun i => ?_
  rw [getElem?_numberEqual, getElem?_numberEqual]
  cases hx : xs[i]? with
  | none =>
    rw [List.getElem?_eq_none_iff, length] at hx
    rw [List.getElem?_eq_none hx]
    rfl
  | some a =>
    have hi := (List.getElem?_eq_some_iff.mp hx).1
    have hy := List.getElem?_eq_getElem (length ▸ hi)
    have hp : (a, ys[i]) ∈ xs.zip ys := mem_zip_iff.mpr ⟨i, hx, hy⟩
    rw [hy, Option.map_some, Option.map_some, numberOf_eq_of_mem_zip length same hp]

/-- Different elements are numbered by their places. -/
theorem numberEqual_of_nodup (nodup : xs.Nodup) : numberEqual xs = List.range xs.length := by
  refine List.ext_getElem? fun i => ?_
  rw [getElem?_numberEqual]
  by_cases hi : i < xs.length
  · have there : (Numbering.ofList xs).elements[i]? = some xs[i] := by
      rw [← Array.getElem?_toList]
      exact (congrArg (·[i]?) (Numbering.toList_ofList_of_nodup nodup)).trans (List.getElem?_eq_getElem hi)
    rw [List.getElem?_eq_getElem hi, List.getElem?_range hi, Option.map_some, Numbering.numberOf_eq _ there]
  · rw [List.getElem?_eq_none (Nat.le_of_not_lt hi),
      List.getElem?_eq_none (List.length_range.trans_le (Nat.le_of_not_lt hi))]
    rfl

/-- Whether the numbers are those that `numberEqual` gives. -/
def Canonical (blocks : List Nat) : Prop := numberEqual blocks = blocks

theorem canonical_numberEqual (xs : List α) : Canonical (numberEqual xs) :=
  numberEqual_congr (length_numberEqual xs) (numberEqual_refines xs) (refines_numberEqual xs)

theorem Canonical.getElem?_zero {blocks : List Nat} (h : Canonical blocks) (ne : blocks ≠ []) :
    blocks[0]? = some 0 := by
  obtain ⟨b, rest, rfl⟩ := List.exists_cons_of_ne_nil ne
  have first : (Numbering.ofList (b :: rest)).elements[0]? = some b := by
    have one : (Numbering.ofList [b]).elements[0]? = some b := by rw [Numbering.elements_ofList_singleton]; rfl
    exact Numbering.getElem?_of_prefix (Numbering.toList_prefix_insertAll _ rest) one
  rw [← h, getElem?_numberEqual, List.getElem?_cons_zero, Option.map_some, Numbering.numberOf_eq _ first]

/-- Every number below the number of blocks is that of some place, and all numbers are below it. -/
theorem Canonical.lt_blockCount_iff {blocks : List Nat} (h : Canonical blocks) {block : Nat} :
    block < blockCount blocks ↔ block ∈ blocks := by
  have number : ∀ b ∈ blocks, (Numbering.ofList blocks).numberOf b = b := by
    intro b hb
    obtain ⟨i, hi⟩ := List.mem_iff_getElem?.mp hb
    have there : (numberEqual blocks)[i]? = _ := getElem?_numberEqual i
    rw [h, hi, Option.map_some] at there
    exact (Option.some.inj there).symm
  have mem : ∀ b, b < (Numbering.ofList blocks).size → b ∈ blocks := by
    intro b hb
    have there := Array.getElem?_eq_getElem hb
    have hv := Numbering.mem_ofList.mp ((Numbering.mem_toList_iff _).mpr ⟨b, there⟩)
    have same := Numbering.numberOf_eq _ there
    rw [number _ hv] at same
    exact same ▸ hv
  have lt : ∀ b ∈ blocks, b < (Numbering.ofList blocks).size := by
    intro b hb
    have lt := Numbering.numberOf_lt _ (Numbering.mem_ofList.mpr hb)
    rwa [number b hb] at lt
  rw [blockCount]
  cases hmax : blocks.max? with
  | none =>
    rw [List.max?_eq_none_iff.mp hmax]
    exact iff_of_false (Nat.not_lt_zero _) List.not_mem_nil
  | some last =>
    obtain ⟨hlast, le⟩ := List.max?_eq_some_iff.mp hmax
    constructor
    · intro hb
      exact mem block (Nat.lt_of_le_of_lt (Nat.le_of_lt_succ hb) (lt last hlast))
    · intro hb
      exact Nat.lt_succ_of_le (le block hb)

end Lists

/-! ## Rounds -/

namespace Dfa

variable {dfa : Dfa} {rows : List (List (Nat × Nat))} {blocks : List Nat} {i : Nat}

/-- The signatures of the states. -/
def signatures (rows : List (List (Nat × Nat))) (blocks : List Nat) : List Signature :=
  List.zipWith (fun block row => ⟨block, row.map fun move => (move.1, blocks.toArray.getD move.2 0)⟩) blocks rows

theorem refineBlocks_eq (rows : List (List (Nat × Nat))) (blocks : List Nat) :
    refineBlocks rows blocks = numberEqual (signatures rows blocks) := rfl

theorem length_signatures (length : rows.length = blocks.length) : (signatures rows blocks).length = blocks.length := by
  rw [signatures, List.length_zipWith, length, Nat.min_self]

theorem length_moveRows (dfa : Dfa) : dfa.moveRows.length = dfa.stateCount :=
  List.length_map ..

theorem signatures_refines (length : rows.length = blocks.length) : Refines (signatures rows blocks) blocks := by
  have block (i : Nat) : blocks[i]? = (signatures rows blocks)[i]?.map Signature.block := by
    rw [signatures, List.getElem?_zipWith]
    cases hb : blocks[i]? with
    | none => rfl
    | some b =>
      have hi : i < rows.length := length ▸ (List.getElem?_eq_some_iff.mp hb).1
      rw [List.getElem?_eq_getElem hi]
      rfl
  intro i j same
  rw [block i, block j, same]

/-- What holds of the blocks in every round. -/
structure Partitions (dfa : Dfa) (blocks : List Nat) : Prop where
  length : blocks.length = dfa.stateCount
  canonical : Canonical blocks
  /-- The states of a block have the same verdict. -/
  verdicts : Refines blocks (dfa.states.toList.map State.verdict)

theorem partitions_verdicts (dfa : Dfa) :
    dfa.Partitions (numberEqual (dfa.states.toList.map State.verdict)) where
  length := (length_numberEqual _).trans (List.length_map ..)
  canonical := canonical_numberEqual _
  verdicts := numberEqual_refines _

namespace Partitions
variable (h : dfa.Partitions blocks)
include h

theorem length_moveRows : dfa.moveRows.length = blocks.length := (Dfa.length_moveRows dfa).trans h.length.symm

theorem refineBlocks_refines : Refines (refineBlocks dfa.moveRows blocks) blocks :=
  (numberEqual_refines _).trans (signatures_refines h.length_moveRows)

theorem refineBlocks : dfa.Partitions (refineBlocks dfa.moveRows blocks) where
  length := (length_numberEqual _).trans ((length_signatures h.length_moveRows).trans h.length)
  canonical := canonical_numberEqual _
  verdicts := h.refineBlocks_refines.trans h.verdicts

theorem exists_state {b : Nat} (hs : blocks[i]? = some b) : ∃ state, dfa.states[i]? = some state := by
  have lt : i < dfa.stateCount := h.length ▸ (List.getElem?_eq_some_iff.mp hs).1
  exact ⟨_, Array.getElem?_eq_getElem lt⟩

/-- **A round that changes something adds a block.** -/
theorem card_lt (changed : Dfa.refineBlocks dfa.moveRows blocks ≠ blocks) :
    blocks.toFinset.card < (Dfa.refineBlocks dfa.moveRows blocks).toFinset.card := by
  by_contra le
  have length := (length_numberEqual _).trans (length_signatures h.length_moveRows)
  have back := h.refineBlocks_refines.symm_of_card_le length (Nat.le_of_not_lt le)
  refine changed ?_
  calc Dfa.refineBlocks dfa.moveRows blocks = numberEqual (Dfa.refineBlocks dfa.moveRows blocks) :=
        h.refineBlocks.canonical.symm
    _ = numberEqual blocks := numberEqual_congr length h.refineBlocks_refines back
    _ = blocks := h.canonical

end Partitions

/-- **The rounds end with blocks that a round does not change.** -/
theorem stable_blocks (dfa : Dfa) (pos : 0 < dfa.stateCount) :
    dfa.Partitions dfa.blocks ∧ refineBlocks dfa.moveRows dfa.blocks = dfa.blocks := by
  have first := dfa.partitions_verdicts
  have le : ∀ blocks, dfa.Partitions blocks → blocks.toFinset.card ≤ dfa.stateCount := by
    intro blocks h
    exact h.length ▸ List.toFinset_card_le blocks
  refine stabilize_fixed (fun blocks : List Nat => blocks.toFinset.card) (fun _ h => h.refineBlocks)
    (fun _ h => h.card_lt) le first ?_
  -- there is a state, and so a block
  have some : 0 < (numberEqual (dfa.states.toList.map State.verdict)).toFinset.card := by
    rw [List.card_toFinset, List.length_pos_iff_ne_nil]
    intro none
    rw [List.dedup_eq_nil] at none
    rw [← first.length, none] at pos
    exact Nat.lt_irrefl _ pos
  exact Nat.lt_add_of_pos_right some

end Dfa
end TableParsing
