import Mathlib.Algebra.GroupWithZero.Nat
import TableParsing.Table.Goto

/-! # Goto tables read back

The default of a column is **the target that it has most often** (`mostFrequent?_eq_some_iff`).  A row stores the columns
**from its first target that is not the default to its last one** (`covered_stretch_iff`), each with its target or, where
it has none, with the default.  So every cell reads back as its target, be it stored or the default, and a cell without a
target as the default of its column (`get?_ofRows_eq`).

The rows store their cells one behind the other, and never more of them than they have, so the numbers in a table fit into
a machine word if its cells can be counted in one (`compresses_ofRows`). -/

namespace TableParsing
namespace GotoTable

variable {defaults row : List (Option Nat)} {rows : List (List (Option Nat))} {targets : List Nat} {n t target : Nat}

/-! ## Most frequent targets -/

/-- Whether `t` is among the targets, none is there more often, and none that is there as often is smaller. -/
structure IsMostFrequent (targets : List Nat) (t : Nat) : Prop where
  mem : t ∈ targets
  outdoes : ∀ u ∈ targets, targets.count u < targets.count t ∨ targets.count u = targets.count t ∧ t ≤ u

theorem IsMostFrequent.unique {u : Nat} (ht : IsMostFrequent targets t) (hu : IsMostFrequent targets u) : t = u := by
  have := ht.outdoes u hu.mem
  have := hu.outdoes t ht.mem
  omega

/-- Whether the first of two counted numbers outdoes the second. -/
def outdoes (a b : Nat × Nat) : Bool := a.2 > b.2 || (a.2 == b.2 && a.1 < b.1)

theorem outdoes_eq_false_iff {a b : Nat × Nat} : outdoes a b = false ↔ a.2 < b.2 ∨ a.2 = b.2 ∧ b.1 ≤ a.1 := by
  simp only [outdoes, Bool.or_eq_false_iff, Bool.and_eq_false_imp, decide_eq_false_iff_not, beq_iff_eq]
  omega

/-- None of the numbers that were looked at outdoes the one that is kept. -/
theorem foldl_outdoes (first : Nat × Nat) (rest : List (Nat × Nat)) :
    rest.foldl (fun best c => if outdoes c best then c else best) first ∈ first :: rest ∧
      ∀ c ∈ first :: rest, outdoes c (rest.foldl (fun best c => if outdoes c best then c else best) first) = false := by
  induction rest generalizing first with
  | nil => simp [outdoes_eq_false_iff]
  | cons c rest ih =>
    rw [List.foldl_cons]
    by_cases better : outdoes c first = true
    · rw [if_pos better]
      obtain ⟨mem, best⟩ := ih c
      refine ⟨List.mem_cons_of_mem _ mem, List.forall_mem_cons.mpr ⟨?_, best⟩⟩
      have best := best c List.mem_cons_self
      have better : ¬(outdoes c first = false) := by simp [better]
      rw [outdoes_eq_false_iff] at best better ⊢
      omega
    · rw [if_neg better]
      obtain ⟨mem, best⟩ := ih first
      obtain ⟨kept, best⟩ := List.forall_mem_cons.mp best
      refine ⟨?_, List.forall_mem_cons.mpr ⟨kept, List.forall_mem_cons.mpr ⟨?_, best⟩⟩⟩
      · rw [List.mem_cons] at mem ⊢
        exact mem.imp_right (List.mem_cons_of_mem _)
      have better := Bool.eq_false_iff.mpr better
      rw [outdoes_eq_false_iff] at kept better ⊢
      omega

theorem isMostFrequent_of_mostFrequent? (h : mostFrequent? targets = some t) : IsMostFrequent targets t := by
  have counted : ∀ c : Nat × Nat, c ∈ targets.eraseDups.map (fun t => (t, targets.count t)) ↔
      c.1 ∈ targets ∧ c.2 = targets.count c.1 := by
    rintro ⟨u, k⟩
    simp only [List.mem_map, List.mem_eraseDups, Prod.mk.injEq]
    constructor
    · rintro ⟨u, hu, rfl, rfl⟩
      exact ⟨hu, rfl⟩
    · rintro ⟨hu, rfl⟩
      exact ⟨u, hu, rfl, rfl⟩
  rw [mostFrequent?] at h
  cases hc : targets.eraseDups.map (fun t => (t, targets.count t)) with
  | nil =>
    rw [hc] at h
    cases h
  | cons first rest =>
    rw [hc] at h counted
    cases h
    obtain ⟨mem, best⟩ := foldl_outdoes first rest
    obtain ⟨mem, count⟩ := (counted _).mp mem
    refine ⟨mem, fun u hu => ?_⟩
    have := outdoes_eq_false_iff.mp (best (u, targets.count u) ((counted _).mpr ⟨hu, rfl⟩))
    rwa [count] at this

theorem mostFrequent?_eq_none_iff : mostFrequent? targets = none ↔ targets = [] := by
  constructor
  · intro h
    cases targets with
    | nil => rfl
    | cons t targets =>
      rw [mostFrequent?, List.eraseDups_cons] at h
      cases h
  · rintro rfl
    rfl

/-- **The default is the most frequent target.** -/
theorem mostFrequent?_eq_some_iff : mostFrequent? targets = some t ↔ IsMostFrequent targets t := by
  refine ⟨isMostFrequent_of_mostFrequent?, fun h => ?_⟩
  cases found : mostFrequent? targets with
  | none => exact absurd (mostFrequent?_eq_none_iff.mp found ▸ h.mem) List.not_mem_nil
  | some u => exact congrArg some ((isMostFrequent_of_mostFrequent? found).unique h)

/-! ## Stretches -/

theorem mem_deviations : n ∈ deviations defaults row ↔
    n < defaults.length ∧ ∃ target, row[n]?.join = some target ∧ some target ≠ defaults[n]?.join := by
  rw [deviations, List.mem_filter, List.mem_range]
  cases row[n]?.join <;> simp

theorem pairwise_deviations (defaults row : List (Option Nat)) :
    (deviations defaults row).Pairwise (· < ·) :=
  List.Pairwise.filter _ List.pairwise_lt_range

theorem head_le_of_pairwise {l : List Nat} {first : Nat} (sorted : l.Pairwise (· < ·))
    (hf : l.head? = some first) (hn : n ∈ l) : first ≤ n := by
  cases l with
  | nil => cases hn
  | cons a l =>
    cases hf
    rcases List.mem_cons.mp hn with rfl | hn
    · exact Nat.le_refl n
    · exact Nat.le_of_lt ((List.pairwise_cons.mp sorted).1 n hn)

theorem le_getLast_of_pairwise {l : List Nat} {last : Nat} (sorted : l.Pairwise (· < ·))
    (hl : l.getLast? = some last) (hn : n ∈ l) : n ≤ last := by
  obtain ⟨front, rfl⟩ := List.getLast?_eq_some_iff.mp hl
  rcases List.mem_append.mp hn with hn | hn
  · exact Nat.le_of_lt ((List.pairwise_append.mp sorted).2.2 n hn last (List.mem_singleton_self last))
  · exact Nat.le_of_eq (List.mem_singleton.mp hn)

theorem default_of_not_mem (hn : n < defaults.length) (ht : row[n]?.join = some target)
    (h : n ∉ deviations defaults row) : defaults[n]?.join = some target := by
  refine Classical.byContradiction fun differs => h ?_
  exact mem_deviations.mpr ⟨hn, target, ht, fun same => differs same.symm⟩

/-- What a row stores: nothing, if it has no deviation, and otherwise its columns from the first deviation to the last. -/
theorem stretch_cases (defaults row : List (Option Nat)) :
    deviations defaults row = [] ∧ stretch defaults row = (0, []) ∨
    ∃ first ∈ deviations defaults row, ∃ last ∈ deviations defaults row,
      (∀ n ∈ deviations defaults row, first ≤ n ∧ n ≤ last) ∧
      stretch defaults row = (first, (List.range' first (last - first + 1)).map fun column =>
        (row[column]?.join).or defaults[column]?.join) := by
  have sorted := pairwise_deviations defaults row
  cases hf : (deviations defaults row).head? with
  | none => exact .inl ⟨List.head?_eq_none_iff.mp hf, by rw [stretch, hf]⟩
  | some first =>
    cases hl : (deviations defaults row).getLast? with
    | none =>
      rw [List.getLast?_eq_none_iff.mp hl] at hf
      cases hf
    | some last =>
      refine .inr ⟨first, List.mem_of_head? hf, last, List.mem_of_getLast? hl, fun n hn => ?_, by rw [stretch, hf, hl]⟩
      exact ⟨head_le_of_pairwise sorted hf hn, le_getLast_of_pairwise sorted hl hn⟩

/-- Whether a column is among some that are stored from their first one on. -/
def Covered (first len n : Nat) : Prop := first ≤ n ∧ n < first + len

/-- **A row stores the columns between its deviations.** -/
theorem covered_stretch_iff : Covered (stretch defaults row).1 (stretch defaults row).2.length n ↔
    ∃ a ∈ deviations defaults row, ∃ b ∈ deviations defaults row, a ≤ n ∧ n ≤ b := by
  rw [Covered]
  rcases stretch_cases defaults row with ⟨none, cells⟩ | ⟨first, hf, last, hl, between, cells⟩
  · simp [none, cells]
  · rw [cells, List.length_map, List.length_range']
    constructor
    · intro ⟨lo, hi⟩
      have := between last hl
      exact ⟨first, hf, last, hl, lo, by omega⟩
    · rintro ⟨a, ha, b, hb, lo, hi⟩
      have := between a ha
      have := between b hb
      omega

/-- A stored cell has the target of the row, or the default if there is none. -/
theorem getElem?_stretch (h : Covered (stretch defaults row).1 (stretch defaults row).2.length n) :
    (stretch defaults row).2[n - (stretch defaults row).1]? = some ((row[n]?.join).or defaults[n]?.join) := by
  obtain ⟨lo, hi⟩ := h
  rcases stretch_cases defaults row with ⟨-, cells⟩ | ⟨first, -, last, -, -, cells⟩
  · simp [cells] at hi
  · rw [cells] at lo hi ⊢
    simp only [List.length_map, List.length_range'] at lo hi
    rw [List.getElem?_map, List.getElem?_range' (by omega), Nat.one_mul, Nat.add_sub_cancel' lo]
    rfl

/-- In a column that is not stored the row has the default, or no target. -/
theorem or_default_of_not_covered (hn : n < defaults.length)
    (h : ¬Covered (stretch defaults row).1 (stretch defaults row).2.length n) :
    (row[n]?.join).or defaults[n]?.join = defaults[n]?.join := by
  cases ht : row[n]?.join with
  | none => rfl
  | some target =>
    have regular : n ∉ deviations defaults row :=
      fun deviates => h (covered_stretch_iff.mpr ⟨n, deviates, n, deviates, Nat.le_refl n, Nat.le_refl n⟩)
    exact (default_of_not_mem hn ht regular).symm

/-- No more is stored of a row than it has. -/
theorem stretch_le (defaults row : List (Option Nat)) :
    (stretch defaults row).1 + (stretch defaults row).2.length ≤ row.length := by
  rcases stretch_cases defaults row with ⟨-, cells⟩ | ⟨first, -, last, hl, between, cells⟩
  · simp [cells]
  · obtain ⟨-, target, ht, -⟩ := mem_deviations.mp hl
    have inside : last < row.length := by
      refine Nat.lt_of_not_le fun beyond => ?_
      rw [List.getElem?_eq_none beyond] at ht
      cases ht
    have := between last hl
    rw [cells, List.length_map, List.length_range']
    omega

/-! ## Stored rows -/

/-- The row of a stretch that is stored at a place. -/
def rowAt (stretch : Nat × List (Option Nat)) (place : Nat) : GotoRow :=
  if stretch.2.isEmpty then {} else ⟨stretch.1, stretch.2.length, place⟩

theorem len_rowAt (stretch : Nat × List (Option Nat)) (place : Nat) : (rowAt stretch place).len = stretch.2.length := by
  obtain ⟨first, cells⟩ := stretch
  cases cells with
  | nil => rfl
  | cons cell cells => rfl

/-- A row of no cells is nowhere. -/
theorem covered_rowAt_iff {stretch : Nat × List (Option Nat)} {place : Nat} :
    Covered (rowAt stretch place).first (rowAt stretch place).len n ↔ Covered stretch.1 stretch.2.length n := by
  obtain ⟨first, cells⟩ := stretch
  cases cells with
  | nil => exact iff_of_false (fun h => Nat.not_lt_zero n h.2) fun h => absurd h.2 (Nat.not_lt.mpr h.1)
  | cons cell cells => rfl

theorem rowAt_of_covered {stretch : Nat × List (Option Nat)} {place : Nat} (h : Covered stretch.1 stretch.2.length n) :
    rowAt stretch place = ⟨stretch.1, stretch.2.length, place⟩ := by
  obtain ⟨first, cells⟩ := stretch
  cases cells with
  | nil => exact absurd h.2 (Nat.not_lt.mpr h.1)
  | cons cell cells => rfl

theorem length_storeAll (offset : Nat) : (storeAll defaults offset rows).1.length = rows.length := by
  induction rows generalizing offset with
  | nil => rfl
  | cons row rows ih => exact congrArg (· + 1) (ih _)

/-- **Every stretch is stored in one piece.** -/
theorem getElem?_storeAll {state : Nat} (defaults : List (Option Nat)) (offset : Nat) (hrow : rows[state]? = some row) :
    ∃ place, (storeAll defaults offset rows).1[state]? = some (rowAt (stretch defaults row) (offset + place)) ∧
      place + (stretch defaults row).2.length ≤ (storeAll defaults offset rows).2.length ∧
      ∀ k, k < (stretch defaults row).2.length →
        (storeAll defaults offset rows).2[place + k]? = (stretch defaults row).2[k]? := by
  induction rows generalizing state offset with
  | nil => cases hrow
  | cons first rows ih =>
    rw [storeAll]
    cases state with
    | zero =>
      cases hrow
      refine ⟨0, rfl, by simp, ?_⟩
      intro k hk
      rw [Nat.zero_add]
      exact List.getElem?_append_left hk
    | succ state =>
      obtain ⟨place, hplace, bound, hcells⟩ := ih (offset + (stretch defaults first).2.length) hrow
      refine ⟨(stretch defaults first).2.length + place, ?_, ?_, ?_⟩
      · rw [← Nat.add_assoc]
        exact hplace
      · simp only [List.length_append]
        omega
      · intro k hk
        rw [Nat.add_assoc]
        refine (List.getElem?_append_right (Nat.le_add_right _ _)).trans ?_
        rw [Nat.add_sub_cancel_left]
        exact hcells k hk

/-- Nothing is stored but the cells of the rows. -/
theorem length_values_storeAll (offset : Nat) :
    (storeAll defaults offset rows).2.length = ((storeAll defaults offset rows).1.map GotoRow.len).sum := by
  induction rows generalizing offset with
  | nil => rfl
  | cons row rows ih =>
    have here := len_rowAt (stretch defaults row) offset
    rw [rowAt] at here
    simp only [storeAll, List.length_append, List.map_cons, List.sum_cons, here, ih]

theorem length_values_storeAll_le (offset : Nat) :
    (storeAll defaults offset rows).2.length ≤ (rows.map List.length).sum := by
  induction rows generalizing offset with
  | nil => exact Nat.le_refl 0
  | cons row rows ih =>
    have := ih (offset + (stretch defaults row).2.length)
    have := stretch_le defaults row
    simp only [storeAll, List.length_append, List.map_cons, List.sum_cons]
    omega

/-! ## Whole tables -/

/-- The target of a cell; outside of the rows there is none. -/
def target? (rows : List (List (Option Nat))) (state column : Nat) : Option Nat :=
  rows[state]?.bind fun row => row[column]?.join

/-- The targets of a column, state by state. -/
def targetsOf (rows : List (List (Option Nat))) (column : Nat) : List Nat := rows.filterMap fun row => row[column]?.join

/-- The default of a column. -/
def default? (gotos : GotoTable) (column : Nat) : Option Nat := gotos.defaults[column]?.join

/-- Whether the target of a cell is not the default of its column. -/
def Deviates (gotos : GotoTable) (rows : List (List (Option Nat))) (nonTerminals state column : Nat) : Prop :=
  column < nonTerminals ∧ ∃ target, target? rows state column = some target ∧ gotos.default? column ≠ some target

section OfRows
variable {nonTerminals state : Nat}

/-- The defaults of the columns. -/
def defaultsOf (rows : List (List (Option Nat))) (nonTerminals : Nat) : List (Option Nat) :=
  (List.range nonTerminals).map (defaultOf rows)

theorem ofRows_eq : ofRows rows nonTerminals = ⟨(defaultsOf rows nonTerminals).toArray,
    (storeAll (defaultsOf rows nonTerminals) 0 rows).1.toArray,
    (storeAll (defaultsOf rows nonTerminals) 0 rows).2.toArray⟩ := rfl

theorem getElem?_rows_ofRows : (ofRows rows nonTerminals).rows[state]? =
    (storeAll (defaultsOf rows nonTerminals) 0 rows).1[state]? := by
  rw [ofRows_eq, List.getElem?_toArray]

theorem join_defaultsOf (hn : n < nonTerminals) : (defaultsOf rows nonTerminals)[n]?.join = defaultOf rows n := by
  simp [defaultsOf, hn]

theorem default?_eq : (ofRows rows nonTerminals).default? n = (defaultsOf rows nonTerminals)[n]?.join := by
  rw [default?, ofRows_eq, List.getElem?_toArray]

theorem default?_ofRows (hn : n < nonTerminals) : (ofRows rows nonTerminals).default? n = defaultOf rows n :=
  default?_eq.trans (join_defaultsOf hn)

theorem getElem?_rows_eq_none_iff : (ofRows rows nonTerminals).rows[state]? = none ↔ rows[state]? = none := by
  rw [getElem?_rows_ofRows, List.getElem?_eq_none_iff, List.getElem?_eq_none_iff, length_storeAll]

/-- A row of the table stores the stretch of the row that it is made of. -/
theorem exists_row {stored : GotoRow} (hstored : (ofRows rows nonTerminals).rows[state]? = some stored) :
    ∃ row, rows[state]? = some row ∧
      stored.first + stored.len ≤ row.length ∧ stored.offset + stored.len ≤ (ofRows rows nonTerminals).storedCells ∧
      ∀ n, (Covered stored.first stored.len n ↔ Covered (stretch (defaultsOf rows nonTerminals) row).1
          (stretch (defaultsOf rows nonTerminals) row).2.length n) ∧
        (Covered stored.first stored.len n → (ofRows rows nonTerminals).values[stored.offset + n - stored.first]? =
          some ((row[n]?.join).or (defaultsOf rows nonTerminals)[n]?.join)) := by
  cases hrow : rows[state]? with
  | none =>
    rw [getElem?_rows_eq_none_iff.mpr hrow] at hstored
    cases hstored
  | some row =>
    obtain ⟨place, hplace, bound, hcells⟩ := getElem?_storeAll (defaultsOf rows nonTerminals) 0 hrow
    have values : (ofRows rows nonTerminals).values = (storeAll (defaultsOf rows nonTerminals) 0 rows).2.toArray := rfl
    have inside := stretch_le (defaultsOf rows nonTerminals) row
    rw [getElem?_rows_ofRows, hplace, Nat.zero_add] at hstored
    cases hstored
    refine ⟨row, rfl, ?_, ?_, fun n => ⟨covered_rowAt_iff, fun h => ?_⟩⟩
    · rw [rowAt]
      split
      · exact Nat.zero_le _
      · exact inside
    · rw [storedCells, values, List.size_toArray, rowAt]
      split
      · exact Nat.zero_le _
      · exact bound
    · have covered := covered_rowAt_iff.mp h
      have lo := covered.1
      have hi := covered.2
      rw [rowAt_of_covered covered, values, List.getElem?_toArray, Nat.add_sub_assoc lo, hcells _ (by omega)]
      exact getElem?_stretch covered

/-- **Every cell reads back as its target, or as the default if it has none.** -/
theorem get?_ofRows_eq (hn : n < nonTerminals) :
    (ofRows rows nonTerminals).get? state n = (target? rows state n).or (defaultOf rows n) := by
  have default : ((ofRows rows nonTerminals).defaults[n]?).join = defaultOf rows n := default?_ofRows hn
  rw [get?, Array.getD_eq_getD_getElem?, default, target?]
  cases hstored : (ofRows rows nonTerminals).rows[state]? with
  | none => simp [getElem?_rows_eq_none_iff.mp hstored]
  | some stored =>
    obtain ⟨row, hrow, -, -, holds⟩ := exists_row hstored
    obtain ⟨covered, cells⟩ := holds n
    rw [hrow, Option.getD_some, Option.bind_some]
    rw [join_defaultsOf hn] at cells
    by_cases h : Covered stored.first stored.len n
    · rw [if_pos (show stored.first ≤ n ∧ n < stored.first + stored.len from h), cells h, Option.join_some]
    · rw [if_neg (show ¬(stored.first ≤ n ∧ n < stored.first + stored.len) from h), ← join_defaultsOf hn]
      have length : n < (defaultsOf rows nonTerminals).length := by simpa [defaultsOf] using hn
      exact (or_default_of_not_covered length fun inside => h (covered.mpr inside)).symm

/-- **A target reads back.** -/
theorem get?_ofRows (hrow : rows[state]? = some row) (hn : n < nonTerminals) (ht : row[n]?.join = some target) :
    (ofRows rows nonTerminals).get? state n = some target := by
  rw [get?_ofRows_eq hn, target?, hrow, Option.bind_some, ht, Option.some_or]

theorem mem_deviations_defaultsOf (hrow : rows[state]? = some row) :
    n ∈ deviations (defaultsOf rows nonTerminals) row ↔ (ofRows rows nonTerminals).Deviates rows nonTerminals state n := by
  have length : (defaultsOf rows nonTerminals).length = nonTerminals := by simp [defaultsOf]
  rw [mem_deviations, Deviates, length, target?, hrow, Option.bind_some]
  refine and_congr_right fun hn => ?_
  rw [default?_eq]
  simp only [ne_comm, ne_eq]

/-- What a table has to be for some rows.  Its defaults are the most frequent targets of the columns.  A cell reads back as
its target, and as the default if it has none, be the state past the last one.  The cells of a state are stored from its
first deviation to its last one, and no others. -/
structure Compresses (gotos : GotoTable) (rows : List (List (Option Nat))) (nonTerminals : Nat) : Prop where
  get?_of_target : ∀ state column target, column < nonTerminals → target? rows state column = some target →
    gotos.get? state column = some target
  get?_of_none : ∀ state column, column < nonTerminals → target? rows state column = none →
    gotos.get? state column = gotos.default? column
  default?_eq_some_iff : ∀ column target, column < nonTerminals →
    (gotos.default? column = some target ↔ IsMostFrequent (targetsOf rows column) target)
  default?_eq_none_iff : ∀ column, column < nonTerminals → (gotos.default? column = none ↔ targetsOf rows column = [])
  size_rows : gotos.rows.size = rows.length
  covered_iff : ∀ state stored, gotos.rows[state]? = some stored → ∀ column, Covered stored.first stored.len column ↔
    ∃ a b, gotos.Deviates rows nonTerminals state a ∧ gotos.Deviates rows nonTerminals state b ∧ a ≤ column ∧ column ≤ b
  getElem?_values : ∀ state stored, gotos.rows[state]? = some stored → ∀ column,
    Covered stored.first stored.len column →
      gotos.values[stored.offset + column - stored.first]? = some ((target? rows state column).or (gotos.default? column))
  storedCells_eq : gotos.storedCells = (gotos.rows.toList.map GotoRow.len).sum

/-- **Compression keeps every target.**  The numbers in a table fit into 32 bits if the number of cells does. -/
theorem compresses_ofRows (rows : List (List (Option Nat))) (nonTerminals : Nat) :
    (ofRows rows nonTerminals).Compresses rows nonTerminals ∧
    ((rows.map List.length).sum < Nat.pow 2 32 → ∀ stored ∈ (ofRows rows nonTerminals).rows,
      stored.first < Nat.pow 2 32 ∧ stored.len < Nat.pow 2 32 ∧ stored.offset < Nat.pow 2 32) := by
  constructor
  · refine {
      get?_of_target := fun state n target hn ht => ?_
      get?_of_none := fun state n hn ht => ?_
      default?_eq_some_iff := fun n target hn => ?_
      default?_eq_none_iff := fun n hn => ?_
      size_rows := length_storeAll 0
      covered_iff := fun state stored hstored n => ?_
      getElem?_values := fun state stored hstored n h => ?_
      storedCells_eq := length_values_storeAll 0 }
    · rw [get?_ofRows_eq hn, ht, Option.some_or]
    · rw [get?_ofRows_eq hn, ht, Option.none_or, default?_ofRows hn]
    · rw [default?_ofRows hn, defaultOf, mostFrequent?_eq_some_iff, targetsOf]
    · rw [default?_ofRows hn, defaultOf, mostFrequent?_eq_none_iff, targetsOf]
    · obtain ⟨row, hrow, -, -, holds⟩ := exists_row hstored
      rw [(holds n).1, covered_stretch_iff]
      simp only [mem_deviations_defaultsOf hrow, exists_and_left]
    · obtain ⟨row, hrow, -, -, holds⟩ := exists_row hstored
      rw [(holds n).2 h, target?, hrow, Option.bind_some, default?_eq]
  · intro few stored hs
    obtain ⟨state, hstate, rfl⟩ := Array.mem_iff_getElem.mp hs
    obtain ⟨row, hrow, width, place, -⟩ := exists_row (Array.getElem?_eq_getElem hstate)
    have total : (ofRows rows nonTerminals).storedCells ≤ (rows.map List.length).sum := length_values_storeAll_le 0
    have length : row.length ≤ (rows.map List.length).sum := by
      obtain ⟨front, back, rfl⟩ := List.append_of_mem (List.mem_of_getElem? hrow)
      simp only [List.map_append, List.map_cons, List.sum_append, List.sum_cons]
      omega
    omega

/-- Of two targets that a column has as often the smaller one is its default, and a cell without a target that lies between
two deviations is stored as the default. -/
example : ofRows [[some 1, none, some 3, some 9], [some 4, some 5], [some 4, some 5, some 2]] 3 =
    ⟨#[some 4, some 5, some 2], #[⟨0, 3, 0⟩, {}, {}], #[some 1, some 5, some 3]⟩ := by decide

end OfRows

end GotoTable
end TableParsing
