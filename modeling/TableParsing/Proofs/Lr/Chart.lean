import TableParsing.Proofs.Lr.Prefix

/-! # Charts

The states of an automaton are found with hash tables, so they are not computed here.  A **chart** says instead which
cores words may lead to, with what may follow them, and where symbols lead.  It is checked once, place by place
(`Chart.closes`): then it has every core that is viable for a word in the place of the word (`Chart.exists_has`), with
every terminal that is valid (`Chart.exists_allows`).

Places may stand for the canonical states.  Or there is one place for each set of cores that words bring, so that no
core that has moved on stands in two places (`Chart.separates`). -/

namespace TableParsing

/-- The cores of each place with what may follow them, and where symbols lead. -/
structure Chart where
  rows : List (List (Core × List Nat))
  moves : List ((Nat × Symbol) × Nat)

namespace Chart
variable (chart : Chart)

/-- What stands in a place. -/
def row (place : Nat) : List (Core × List Nat) := chart.rows.getD place []

/-- Where a symbol leads from a place. -/
def target? (place : Nat) (symbol : Symbol) : Option Nat := chart.moves.lookup (place, symbol)

/-- Where a word leads, the latest symbol first. -/
def placeAfter : List Symbol → Option Nat
  | [] => some 0
  | symbol :: word => (placeAfter word).bind fun place => chart.target? place symbol

/-- Whether a core stands in a place with all of some terminals. -/
def covers (place : Nat) (core : Core) (ts : List Nat) : Bool :=
  (chart.row place).any fun entry => entry.1 = core && ts.all (entry.2.contains ·)

/-- What an entry asks for in its place: the terminals that may follow the productions of what stands behind its dot. -/
def passes (cfg : Cfg) (entry : Core × List Nat) : List Nat :=
  let first := cfg.firstOf cfg.firstSets (cfg.behind entry.1)
  first.1.toList ++ if first.2 then entry.2 else []

/-- Whether a place has what an entry asks for, and its symbol leads on. -/
def answers (cfg : Cfg) (place : Nat) (entry : Core × List Nat) : Bool :=
  match cfg.nextSymbol? entry.1 with
  | none => true
  | some symbol =>
    ((chart.target? place symbol).any fun target => chart.covers target entry.1.advance entry.2) &&
      match symbol with
      | .terminal _ => true
      | .nonTerminal n => (cfg.productionsOf n).all fun p => chart.covers place ⟨p, 0⟩ (passes cfg entry)

/-- Whether the first place has the beginning, and all places have what their entries ask for. -/
def closes (cfg : Cfg) : Bool :=
  chart.covers 0 ⟨cfg.augmented, 0⟩ [endTerminal] &&
    (List.range chart.rows.length).all fun place => (chart.row place).all (chart.answers cfg place)

/-- Whether the places are told apart by the cores that have moved on. -/
def separates : Bool :=
  (List.range chart.rows.length).all fun a => (List.range chart.rows.length).all fun b =>
    a = b || (chart.row a).all fun entry => (chart.row b).all fun other => entry.1.dot = 0 || entry.1 ≠ other.1

/-- Whether a core stands in a place. -/
def Has (place : Nat) (core : Core) : Prop := ∃ ts, (core, ts) ∈ chart.row place

/-- Whether it stands there with a terminal. -/
def Allows (place : Nat) (core : Core) (t : Nat) : Prop := ∃ ts, (core, ts) ∈ chart.row place ∧ t ∈ ts

variable {chart} {cfg : Cfg} {place other : Nat} {core : Core} {ts : List Nat} {word : List Symbol} {symbol : Symbol}
  {t : Nat}

theorem exists_of_covers (h : chart.covers place core ts) : ∃ us, (core, us) ∈ chart.row place ∧ ∀ t ∈ ts, t ∈ us := by
  obtain ⟨⟨core', us⟩, hm, h⟩ := List.any_eq_true.mp h
  obtain ⟨same, all⟩ := Bool.and_eq_true_iff.mp h
  cases of_decide_eq_true same
  exact ⟨us, hm, fun t ht => List.contains_iff_mem.mp (List.all_eq_true.mp all t ht)⟩

theorem has_of_covers (h : chart.covers place core ts) : chart.Has place core :=
  (exists_of_covers h).imp fun _ => And.left

theorem allows_of_covers (h : chart.covers place core ts) (ht : t ∈ ts) : chart.Allows place core t :=
  (exists_of_covers h).imp fun _ ⟨hm, all⟩ => ⟨hm, all t ht⟩

theorem place_lt (hm : (core, ts) ∈ chart.row place) : place < chart.rows.length := by
  rw [row, List.getD_eq_getElem?_getD] at hm
  by_contra outside
  rw [List.getElem?_eq_none (Nat.le_of_not_lt outside)] at hm
  cases hm

/-- Cores that have moved on stand in one place only. -/
theorem eq_of_has (separates : chart.separates) (moved : core.dot ≠ 0) (here : chart.Has place core)
    (there : chart.Has other core) : place = other := by
  obtain ⟨ts, hm⟩ := here
  obtain ⟨us, ho⟩ := there
  have apart := List.all_eq_true.mp (List.all_eq_true.mp separates place (List.mem_range.mpr (place_lt hm))) other
    (List.mem_range.mpr (place_lt ho))
  rcases Bool.or_eq_true_iff.mp apart with same | apart
  · exact of_decide_eq_true same
  · have apart := List.all_eq_true.mp (List.all_eq_true.mp apart _ hm) _ ho
    simp [moved] at apart

section Closed
variable (h : chart.closes cfg)
include h

theorem covers_start : chart.covers 0 ⟨cfg.augmented, 0⟩ [endTerminal] := (Bool.and_eq_true_iff.mp h).1

theorem answers_of_mem (hm : (core, ts) ∈ chart.row place) : chart.answers cfg place (core, ts) :=
  List.all_eq_true.mp (List.all_eq_true.mp (Bool.and_eq_true_iff.mp h).2 place (List.mem_range.mpr (place_lt hm)))
    (core, ts) hm

/-- A symbol leads an entry to its place. -/
theorem exists_target (hm : (core, ts) ∈ chart.row place) (next : cfg.nextSymbol? core = some symbol) :
    ∃ target, chart.target? place symbol = some target ∧ chart.covers target core.advance ts := by
  have answers := answers_of_mem h hm
  simp only [Chart.answers, next, Bool.and_eq_true] at answers
  cases leads : chart.target? place symbol with
  | none =>
    rw [leads] at answers
    cases answers.1
  | some target =>
    rw [leads] at answers
    exact ⟨target, rfl, answers.1⟩

/-- An entry has what it asks for. -/
theorem covers_asked {n p : Nat} (hm : (core, ts) ∈ chart.row place)
    (next : cfg.nextSymbol? core = some (.nonTerminal n)) (hp : p ∈ cfg.productionsOf n) :
    chart.covers place ⟨p, 0⟩ (passes cfg (core, ts)) := by
  have answers := answers_of_mem h hm
  simp only [Chart.answers, next, Bool.and_eq_true] at answers
  exact List.all_eq_true.mp answers.2 p hp

/-! ## Words -/

/-- **A chart has what words lead to.** -/
theorem exists_has (viable : cfg.Viable word core) :
    ∃ place, chart.placeAfter word = some place ∧ chart.Has place core := by
  induction viable with
  | start => exact ⟨0, rfl, has_of_covers (covers_start h)⟩
  | expand _ next hp ih =>
    obtain ⟨place, after, ts, hm⟩ := ih
    exact ⟨place, after, has_of_covers (covers_asked h hm next hp)⟩
  | advance _ next ih =>
    obtain ⟨place, after, ts, hm⟩ := ih
    obtain ⟨target, leads, covers⟩ := exists_target h hm next
    refine ⟨target, ?_, has_of_covers covers⟩
    rw [placeAfter, after, Option.bind_some, leads]

/-- **A chart allows what is valid.** -/
theorem exists_allows (valid : cfg.Valid word core t) :
    ∃ place, chart.placeAfter word = some place ∧ chart.Allows place core t := by
  induction valid with
  | start => exact ⟨0, rfl, allows_of_covers (covers_start h) List.mem_cons_self⟩
  | first viable next hp ht =>
    obtain ⟨place, after, ts, hm⟩ := exists_has h viable
    refine ⟨place, after, allows_of_covers (covers_asked h hm next hp) ?_⟩
    exact List.mem_append_left _ ((TerminalSet.mem_toList _).mpr ht)
  | pass _ next hp nullable ih =>
    obtain ⟨place, after, ts, hm, ht⟩ := ih
    refine ⟨place, after, allows_of_covers (covers_asked h hm next hp) (List.mem_append_right _ ?_)⟩
    rwa [if_pos nullable]
  | advance _ next ih =>
    obtain ⟨place, after, ts, hm, ht⟩ := ih
    obtain ⟨target, leads, covers⟩ := exists_target h hm next
    refine ⟨target, ?_, allows_of_covers covers ht⟩
    rw [placeAfter, after, Option.bind_some, leads]

/-- Where one core stands alone, a word leads to no other. -/
theorem eq_of_viable {alone : Core} (after : chart.placeAfter word = some place) (row : chart.row place = [(alone, ts)])
    (viable : cfg.Viable word core) : core = alone := by
  obtain ⟨other, there, us, hm⟩ := exists_has h viable
  cases after.symm.trans there
  rw [row, List.mem_singleton] at hm
  exact congrArg Prod.fst hm

theorem mem_of_valid {alone : Core} (after : chart.placeAfter word = some place) (row : chart.row place = [(alone, ts)])
    (valid : cfg.Valid word core t) : t ∈ ts := by
  obtain ⟨other, there, us, hm, ht⟩ := exists_allows h valid
  cases after.symm.trans there
  rw [row, List.mem_singleton] at hm
  cases hm
  exact ht

end Closed

end Chart
end TableParsing
