/-! # Packed tables

The rows of a table often hold the same cells at the same places.  A `PackedTable` stores all rows in one
array, on top of one another: each row begins at the first place where **all of its cells agree with
what is stored there already**; what stands out behind the end is added.  Since empty cells have to
agree too, every row reads back as it was. -/

namespace TableParsing

/-- Rows of equal width, stored on top of one another. -/
structure PackedTable (α : Type) where
  cells : Array α
  /-- The place where each row begins. -/
  displacements : Array Nat
  width : Nat
deriving DecidableEq, Inhabited, Repr

namespace PackedTable
variable {α : Type} [DecidableEq α]

/-- The cell that more than half of the row is like, if there is one.  Each cell votes for itself, and two
unlike votes cancel. -/
def majority? (row : List α) : Option α :=
  (row.foldl (fun (leader, votes) a =>
    if votes = 0 then (some a, 1)
    else if leader = some a then (leader, votes + 1)
    else (leader, votes - 1)) ((none, 0) : Option α × Nat)).1

/-- The cells of a row with their columns.  Those that are unlike most of the row come first, since they are
the ones that rarely agree with what is stored. -/
def probes (row : List α) : List (α × Nat) :=
  let usual := majority? row
  let (alike, unlike) := row.zipIdx.partition fun (a, _) => usual = some a
  unlike ++ alike

theorem mem_probes {row : List α} {a : α} {i : Nat} :
    (a, i) ∈ probes row ↔ (a, i) ∈ row.zipIdx := by
  simp only [probes, List.partition_eq_filter_filter, List.mem_append, List.mem_filter]
  by_cases h : majority? row = some a <;> simp [h]

/-- Whether the probes of a row agree with the cells from the place `d` on, as far as those reach. -/
def agreesAt (cells : Array α) (d : Nat) (probes : List (α × Nat)) : Bool :=
  probes.all fun (a, i) => if h : d + i < cells.size then cells[d + i] = a else true

/-- The first place from `d` on where a row agrees with the cells; behind the last cell it does. -/
def firstPlace (cells : Array α) (probes : List (α × Nat)) (d : Nat) : Nat :=
  if d < cells.size ∧ !agreesAt cells d probes then firstPlace cells probes (d + 1) else d
termination_by cells.size - d

/-- The places of the rows when they are stored one after the other, and all cells. -/
def placeAll (cells : Array α) : List (List α) → List Nat × Array α
  | [] => ([], cells)
  | row :: rows =>
    let d := firstPlace cells (probes row) 0
    let (ds, cells) := placeAll (cells ++ row.drop (cells.size - d)) rows
    (d :: ds, cells)

/-- The table of the `rows`, which are `width` cells long. -/
def pack (rows : List (List α)) (width : Nat) : PackedTable α :=
  let (displacements, cells) := placeAll #[] rows
  ⟨cells, displacements.toArray, width⟩

variable {α : Type} (table : PackedTable α)

/-- The cell in a row and a column; there is none outside the table. -/
def get? (row column : Nat) : Option α :=
  if column < table.width then
    table.displacements[row]?.bind fun d => table.cells[d + column]?
  else none

/-- The number of rows. -/
def rowCount : Nat := table.displacements.size

/-- The number of cells that are stored. -/
def size : Nat := table.cells.size

end PackedTable
end TableParsing
