import TableParsing.Table.Packed

/-! # Packed tables read back

A row is placed where its cells agree with what is stored, and cells that are stored never change.  So all
rows can be read from the cells at the end, **each at its own place** (`getElem?_placeAll`), and a table
gives back the rows that it was made of (`get?_pack`).

A row adds no more cells than it has, and begins among the cells that are stored or right behind them.  So a table has
no more cells than its rows, and **its displacements fit into a machine word if its cells can be counted in one**
(`lossless_pack`). -/

namespace TableParsing
namespace PackedTable

variable {α : Type} [DecidableEq α] {cells : Array α} {row : List α} {rows : List (List α)} {a : α}
  {d i j width : Nat}

theorem agreesAt_iff : agreesAt cells d (probes row) ↔
    ∀ j a, row[j]? = some a → ∀ b, cells[d + j]? = some b → b = a := by
  simp only [agreesAt, List.all_eq_true, Prod.forall, mem_probes, List.mk_mem_zipIdx_iff_getElem?]
  constructor
  · intro h j a ha b hb
    obtain ⟨bound, rfl⟩ := Array.getElem?_eq_some_iff.mp hb
    have := h a j ha
    rw [dif_pos bound] at this
    exact of_decide_eq_true this
  · intro h a j ha
    split
    · rename_i bound
      exact decide_eq_true (h j a ha _ (Array.getElem?_eq_getElem bound))
    · rfl

/-- The place that is found is free for the row, and not behind the last cell. -/
theorem firstPlace_spec (row : List α) (hd : d ≤ cells.size) : firstPlace cells (probes row) d ≤ cells.size ∧
    agreesAt cells (firstPlace cells (probes row) d) (probes row) := by
  induction d using firstPlace.induct cells (probes row) with
  | case1 d h ih =>
    rw [firstPlace, if_pos h]
    exact ih h.1
  | case2 d h =>
    rw [firstPlace, if_neg h]
    refine ⟨hd, ?_⟩
    by_cases bound : d < cells.size
    · cases agree : agreesAt cells d (probes row) with
      | true => rfl
      | false => exact absurd ⟨bound, by rw [agree]; rfl⟩ h
    · refine agreesAt_iff.mpr fun j a _ b hb => ?_
      have := (Array.getElem?_eq_some_iff.mp hb).1
      omega

omit [DecidableEq α] in
theorem getElem?_append {more : List α} : (cells ++ more)[i]? =
    if i < cells.size then cells[i]? else more[i - cells.size]? := by
  rw [← Array.getElem?_toList, Array.toList_appendList, List.getElem?_append, Array.getElem?_toList]
  rfl

/-- A row that agrees with the cells reads back once it is stored. -/
theorem getElem?_store (hd : d ≤ cells.size) (agrees : agreesAt cells d (probes row))
    (ha : row[j]? = some a) : (cells ++ row.drop (cells.size - d))[d + j]? = some a := by
  rw [getElem?_append]
  split
  · rename_i bound
    have there := Array.getElem?_eq_getElem bound
    rw [there, agreesAt_iff.mp agrees j a ha _ there]
  · rename_i bound
    rw [List.getElem?_drop, show cells.size - d + (d + j - cells.size) = j by omega]
    exact ha

/-- Cells that are stored never change. -/
theorem getElem?_placeAll_of_eq_some (rows : List (List α)) (h : cells[i]? = some a) :
    (placeAll cells rows).2[i]? = some a := by
  induction rows generalizing cells with
  | nil => exact h
  | cons row rows ih =>
    refine ih ?_
    rw [getElem?_append, if_pos (Array.getElem?_eq_some_iff.mp h).1]
    exact h

/-- **Every row reads back from its place.** -/
theorem getElem?_placeAll (cells : Array α) (hrow : rows[i]? = some row) (ha : row[j]? = some a) :
    ∃ place, (placeAll cells rows).1[i]? = some place ∧ (placeAll cells rows).2[place + j]? = some a := by
  induction rows generalizing cells i with
  | nil => cases hrow
  | cons first rows ih =>
    obtain ⟨bound, agrees⟩ := firstPlace_spec first (Nat.zero_le cells.size)
    cases i with
    | zero =>
      cases hrow
      have stored := getElem?_store bound agrees ha
      exact ⟨_, rfl, getElem?_placeAll_of_eq_some rows stored⟩
    | succ i => exact ih _ hrow

theorem length_placeAll : (placeAll cells rows).1.length = rows.length := by
  induction rows generalizing cells with
  | nil => rfl
  | cons row rows ih => exact congrArg (· + 1) ih

/-- **A table gives back its rows.** -/
theorem get?_pack (hrow : rows[i]? = some row) (ha : row[j]? = some a) (hj : j < width) :
    (pack rows width).get? i j = some a := by
  obtain ⟨place, hplace, hcell⟩ := getElem?_placeAll #[] hrow ha
  have displacement : (pack rows width).displacements[i]? = some place := by
    rw [pack, List.getElem?_toArray]
    exact hplace
  rw [get?, displacement]
  exact (if_pos hj).trans hcell

/-- Outside its rows a table has no cells. -/
theorem get?_pack_eq_none (h : rows.length ≤ i ∨ width ≤ j) :
    (pack rows width).get? i j = none := by
  rw [get?]
  rcases h with h | h
  · have displacement : (pack rows width).displacements[i]? = none := by
      rw [pack, List.getElem?_toArray]
      refine List.getElem?_eq_none ?_
      rwa [length_placeAll]
    rw [displacement, Option.bind_none, ite_self]
  · exact if_neg (Nat.not_lt.mpr h)

/-! ## Sizes -/

omit [DecidableEq α] in
theorem size_append_drop :
    (cells ++ row.drop (cells.size - d)).size = cells.size + (row.length - (cells.size - d)) := by
  rw [← Array.length_toList, Array.toList_appendList, List.length_append, List.length_drop, Array.length_toList]

theorem size_le_placeAll (cells : Array α) (rows : List (List α)) : cells.size ≤ (placeAll cells rows).2.size := by
  induction rows generalizing cells with
  | nil => exact Nat.le_refl _
  | cons row rows ih =>
    refine Nat.le_trans ?_ (ih _)
    rw [size_append_drop]
    exact Nat.le_add_right _ _

/-- A row adds no more cells than it has. -/
theorem size_placeAll_le (cells : Array α) (full : ∀ row ∈ rows, row.length = width) :
    (placeAll cells rows).2.size ≤ cells.size + rows.length * width := by
  induction rows generalizing cells with
  | nil => exact Nat.le_add_right _ _
  | cons row rows ih =>
    obtain ⟨first, full⟩ := List.forall_mem_cons.mp full
    refine Nat.le_trans (ih _ full) ?_
    rw [size_append_drop, List.length_cons, Nat.succ_mul, first]
    omega

/-- A row begins among the cells or right behind them. -/
theorem le_size_of_mem_placeAll (cells : Array α) (h : d ∈ (placeAll cells rows).1) :
    d ≤ (placeAll cells rows).2.size := by
  induction rows generalizing cells with
  | nil => cases h
  | cons row rows ih =>
    rcases List.mem_cons.mp h with rfl | h
    · -- the first row finds its place among the cells from before, and those are kept
      have place := (firstPlace_spec row (Nat.zero_le cells.size)).1
      exact Nat.le_trans place (size_le_placeAll cells (row :: rows))
    · exact ih _ h

section Full
variable (full : ∀ row ∈ rows, row.length = width)
include full

theorem size_pack_le : (pack rows width).size ≤ rows.length * width := by
  have le := size_placeAll_le #[] full
  rwa [Array.size_empty, Nat.zero_add] at le

theorem le_of_mem_displacements (h : d ∈ (pack rows width).displacements) : d ≤ rows.length * width :=
  have stored : d ≤ (pack rows width).size := le_size_of_mem_placeAll #[] (List.mem_toArray.mp h)
  Nat.le_trans stored (size_pack_le full)

/-- **Packing loses nothing**: a table has the cells of its rows and no others, and stores no more of them.  Its
displacements fit into 32 bits if the number of cells does. -/
theorem lossless_pack :
    (∀ (i j : Nat) (hi : i < rows.length) (hj : j < rows[i].length), (pack rows width).get? i j = some rows[i][j]) ∧
    (∀ i j, rows.length ≤ i ∨ width ≤ j → (pack rows width).get? i j = none) ∧
    (pack rows width).rowCount = rows.length ∧
    (pack rows width).size ≤ rows.length * width ∧
    (rows.length * width < Nat.pow 2 32 → ∀ d ∈ (pack rows width).displacements, d < Nat.pow 2 32) := by
  refine ⟨fun i j hi hj => ?_, fun i j => get?_pack_eq_none, length_placeAll, size_pack_le full, fun few d hd => ?_⟩
  · have inside : j < width := full _ (List.getElem_mem hi) ▸ hj
    exact get?_pack (List.getElem?_eq_getElem hi) (List.getElem?_eq_getElem hj) inside
  · exact Nat.lt_of_le_of_lt (le_of_mem_displacements full hd) few

end Full

/-- The second row is laid over the end of the first one. -/
theorem lossless_pack_overlap : (∀ row ∈ [[1, 2, 3], [2, 3, 4], [9, 9, 9]], row.length = 3) ∧
    (pack [[1, 2, 3], [2, 3, 4], [9, 9, 9]] 3).get? 1 2 = some 4 ∧
    (pack [[1, 2, 3], [2, 3, 4], [9, 9, 9]] 3).get? 1 3 = none ∧
    (pack [[1, 2, 3], [2, 3, 4], [9, 9, 9]] 3).size ≤ 9 := by
  have full : ∀ row ∈ [[1, 2, 3], [2, 3, 4], [9, 9, 9]], row.length = 3 := by decide
  obtain ⟨inside, outside, -, size, -⟩ := lossless_pack full
  exact ⟨full, inside 1 2 (by decide) (by decide), outside 1 3 (by decide), size⟩

end PackedTable
end TableParsing
