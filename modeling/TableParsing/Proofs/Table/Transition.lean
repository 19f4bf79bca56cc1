import TableParsing.Proofs.CharSet.Elementary
import TableParsing.Proofs.Dfa.Lookup
import TableParsing.Proofs.Lexer.Matcher
import TableParsing.Proofs.Table.Packed
import TableParsing.Table.Transition

/-! # Transition tables lose nothing

A column stands for an elementary range of the labels, whose characters no state tells apart, so the cell of a column
may be filled by its first character.  A character of no column is on no edge.  **The next state in the table is the
one that the automaton steps to** (`next_ofDfa`), whether the rows are packed or not. -/

namespace TableParsing

variable {dfa : Dfa} {state : Dfa.State} {r : CharRange} {c d : Char} {s t : Nat}

namespace Dfa

theorem mem_labels (hs : state ∈ dfa.states) {label : CharSet} (he : (label, t) ∈ state.edges) : label ∈ dfa.labels :=
  List.mem_flatMap.mpr ⟨state, Array.mem_toList_iff.mpr hs, List.mem_map.mpr ⟨_, he, rfl⟩⟩

namespace IsSeparate
variable (h : dfa.IsSeparate)
include h

theorem elementary_columns : dfa.columns.Elementary dfa.labels := by
  refine CharSet.elementary_elementary fun label hl => ?_
  obtain ⟨state, hs, hl⟩ := List.mem_flatMap.mp hl
  obtain ⟨e, he, rfl⟩ := List.mem_map.mp hl
  exact (h state (Array.mem_toList_iff.mp hs)).wellFormed e he

/-- All characters of a column lead to the same state. -/
theorem target?_congr (hs : state ∈ dfa.states) (hr : r ∈ dfa.columns.ranges) (hc : c ∈ r) (hd : d ∈ r) :
    state.target? c = state.target? d := by
  refine Option.ext fun t => ?_
  rw [State.target?_eq_some_iff (h state hs), State.target?_eq_some_iff (h state hs)]
  have uniform := h.elementary_columns.uniform r hr
  constructor
  · rintro ⟨label, he, hl⟩
    exact ⟨label, he, uniform label (mem_labels hs he) c hc d hd hl⟩
  · rintro ⟨label, he, hl⟩
    exact ⟨label, he, uniform label (mem_labels hs he) d hd c hc hl⟩

/-- A character of no column leads nowhere. -/
theorem target?_eq_none (hs : state ∈ dfa.states) (hc : c ∉ dfa.columns) : state.target? c = none := by
  refine Option.eq_none_iff_forall_ne_some.mpr fun t ht => hc ?_
  obtain ⟨label, he, hl⟩ := (State.target?_eq_some_iff (h state hs)).mp ht
  exact (h.elementary_columns.mem_iff c).mpr ⟨label, mem_labels hs he, hl⟩

end IsSeparate
end Dfa

namespace TransitionTable

/-- The rows of cells: for each state, the states that the first characters of the columns lead to. -/
def rowsOf (dfa : Dfa) : List (List (Option Nat)) :=
  dfa.states.toList.map fun state => state.targets (dfa.columns.ranges.map CharRange.lo)

theorem length_of_mem_rowsOf {row : List (Option Nat)} (h : row ∈ rowsOf dfa) :
    row.length = dfa.columns.ranges.length := by
  obtain ⟨state, -, rfl⟩ := List.mem_map.mp h
  rw [Dfa.State.targets_eq_map, List.length_map, List.length_map]

theorem getElem?_rowsOf (dfa : Dfa) (s column : Nat) : ((rowsOf dfa)[s]?.bind (·[column]?)).join =
    dfa.states[s]?.bind fun state => dfa.columns.ranges[column]?.bind fun r => state.target? r.lo := by
  rw [rowsOf, List.getElem?_map, Array.getElem?_toList]
  cases dfa.states[s]? with
  | none => rfl
  | some state =>
    rw [Option.map_some, Option.bind_some, Option.bind_some, Dfa.State.targets_eq_map, List.getElem?_map,
      List.getElem?_map]
    cases dfa.columns.ranges[column]? <;> rfl

theorem cells_ofDfa (dfa : Dfa) :
    (ofDfa dfa true).cells = .packed (.pack (rowsOf dfa) dfa.columns.ranges.length) :=
  congrArg (fun width => TransitionCells.packed (.pack (rowsOf dfa) width)) (List.length_map ..)

/-- The cells, packed or not, are those of the rows. -/
theorem cell_ofDfa (dfa : Dfa) (compress : Bool) (s column : Nat) :
    (ofDfa dfa compress).cell s column =
      dfa.states[s]?.bind fun state => dfa.columns.ranges[column]?.bind fun r => state.target? r.lo := by
  rw [← getElem?_rowsOf]
  cases compress with
  | false =>
    have cells : (ofDfa dfa false).cells = .rows ((rowsOf dfa).map List.toArray).toArray := rfl
    rw [cell, cells]
    simp only [List.getElem?_toArray, List.getElem?_map, Option.bind_map, Function.comp_def]
  | true =>
    rw [cell, cells_ofDfa]
    refine congrArg Option.join ?_
    cases hrow : (rowsOf dfa)[s]? with
    | none => exact PackedTable.get?_pack_eq_none (.inl (List.getElem?_eq_none_iff.mp hrow))
    | some row =>
      rw [Option.bind_some]
      cases ha : row[column]? with
      | none =>
        exact PackedTable.get?_pack_eq_none (.inr (length_of_mem_rowsOf (List.mem_of_getElem? hrow) ▸
          List.getElem?_eq_none_iff.mp ha))
      | some a =>
        exact PackedTable.get?_pack hrow ha (length_of_mem_rowsOf (List.mem_of_getElem? hrow) ▸
          (List.getElem?_eq_some_iff.mp ha).1)

/-- **The table steps as the automaton does.** -/
theorem next_ofDfa (h : dfa.IsSeparate) (compress : Bool) (s : Nat) (c : Char) :
    (ofDfa dfa compress).next s c = dfa.step s c := by
  have columns : (ofDfa dfa compress).columns = dfa.columns := rfl
  rw [next, columns, Dfa.step_eq_bind]
  cases hs : dfa.states[s]? with
  | none =>
    cases dfa.columns.indexOf? c with
    | none => rfl
    | some column =>
      rw [Option.bind_some, cell_ofDfa, hs]
      rfl
  | some state =>
    have there := Array.mem_of_getElem? hs
    cases hc : dfa.columns.indexOf? c with
    | none => exact (h.target?_eq_none there (CharSet.indexOf?_eq_none_iff.mp hc)).symm
    | some column =>
      obtain ⟨r, hr, hcr⟩ := CharSet.exists_of_indexOf? hc
      rw [Option.bind_some, cell_ofDfa, hs, Option.bind_some, hr]
      exact h.target?_congr there (List.mem_of_getElem? hr) r.lo_mem hcr

theorem verdict_ofDfa (dfa : Dfa) (compress : Bool) (s : Nat) : (ofDfa dfa compress).verdict s = dfa.verdict s := by
  have verdicts : (ofDfa dfa compress).verdicts = dfa.states.map (·.verdict) := rfl
  rw [verdict, verdicts, Dfa.verdict, Array.getD_eq_getD_getElem?, Array.getElem?_map]

/-- **A table agrees with the automaton that it is made of.** -/
theorem agree_ofDfa (h : dfa.WellFormed) (compress : Bool) : Matcher.Agree dfa (ofDfa dfa compress) := by
  refine ⟨(· = ·), rfl, ?_, ?_⟩
  · rintro s _ rfl c
    change Option.Rel _ (dfa.step s c) ((ofDfa dfa compress).next s c)
    rw [next_ofDfa h.isSeparate]
    cases dfa.step s c with
    | none => exact .none
    | some t => exact .some rfl
  · rintro s _ rfl
    exact (verdict_ofDfa dfa compress s).symm

/-- **Flattening loses nothing**: whether its rows are packed or not, the table steps from every number as the automaton
does, and has its verdicts.  The displacements of packed rows fit into 32 bits if the number of cells does. -/
theorem lossless_ofDfa (separate : dfa.IsSeparate) (compress : Bool) :
    (∀ s c, (ofDfa dfa compress).next s c = dfa.step s c) ∧
    (∀ s, (ofDfa dfa compress).verdict s = dfa.verdict s) ∧
    (dfa.stateCount * dfa.columns.ranges.length < Nat.pow 2 32 → ∀ table, (ofDfa dfa compress).cells = .packed table →
      ∀ d ∈ table.displacements, d < Nat.pow 2 32) := by
  refine ⟨next_ofDfa separate compress, verdict_ofDfa dfa compress, fun few table packed d hd => ?_⟩
  cases compress with
  | false => cases packed
  | true =>
    cases (cells_ofDfa dfa).symm.trans packed
    have le := PackedTable.le_of_mem_displacements (fun row => length_of_mem_rowsOf) hd
    rw [rowsOf, List.length_map] at le
    exact Nat.lt_of_le_of_lt le few

/-- A state that reads all small letters, behind which the letter c leads to a number that no state has.  Its edge cuts
the letters into three columns. -/
def cut : Dfa where
  states := #[⟨[], [(⟨[.between 'a' 'z']⟩, 1)], .reject⟩, ⟨[], [(⟨[.single 'c']⟩, 7)], .token 0⟩]

theorem lossless_ofDfa_cut : cut.IsSeparate ∧ ∀ compress, (ofDfa cut compress).next 0 'd' = some 1 ∧
    (ofDfa cut compress).next 1 'c' = some 7 ∧ (ofDfa cut compress).next 1 'd' = none ∧
    (ofDfa cut compress).next 7 'a' = none ∧ (ofDfa cut compress).verdict 1 = .token 0 := by
  have separate : cut.IsSeparate := by
    have one (r : CharRange) (t : Nat) : Dfa.State.Separate [(⟨[r]⟩, t)] :=
      ⟨fun e he => List.mem_singleton.mp he ▸ List.pairwise_singleton .., List.pairwise_singleton ..⟩
    intro state hs
    rcases List.mem_pair.mp (Array.mem_toList_iff.mpr hs) with rfl | rfl
    · exact one _ 1
    · exact one _ 7
  refine ⟨separate, fun compress => ?_⟩
  obtain ⟨next, verdict, -⟩ := lossless_ofDfa separate compress
  rw [next, next, next, next, verdict]
  exact ⟨by cbv, by cbv, by cbv, by cbv, rfl⟩

end TransitionTable
end TableParsing
