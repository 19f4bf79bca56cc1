import TableParsing.Proofs.Dfa.Blocks
import TableParsing.Proofs.Table.Transition

/-! # Minimisation loses nothing

Once a round changes no block, the states of a block lead to the same block on every character (`blockOf_target?`), for
a signature holds what a state does on each elementary range.  So the first state of a block may stand for all of them:
**the automaton with merged states is in the block of the state that the automaton is in** (`step_minimize`). -/

namespace TableParsing
namespace Dfa

variable {dfa : Dfa} {blocks : List Nat} {state state' : Dfa.State} {s s' b : Nat} {c : Char}

/-- The block of a state. -/
def blockOf (dfa : Dfa) (s : Nat) : Nat := dfa.blocks.toArray.getD s 0

theorem blockOf_eq (hs : dfa.blocks[s]? = some b) : dfa.blockOf s = b := by
  rw [blockOf, Array.getD_eq_getD_getElem?, List.getElem?_toArray, hs]
  rfl

/-! ## States of one block -/

/-- The columns that lead on from a state, with the states that they lead to. -/
def moveRow (dfa : Dfa) (state : Dfa.State) : List (Nat × Nat) :=
  (state.targets (dfa.columns.ranges.map CharRange.lo)).zipIdx.filterMap
    fun (target, column) => target.map (column, ·)

theorem mem_moveRow {column t : Nat} : (column, t) ∈ dfa.moveRow state ↔
    (dfa.columns.ranges[column]?.bind fun r => state.target? r.lo) = some t := by
  rw [moveRow, State.targets_eq_map, List.map_map, List.mem_filterMap]
  simp only [Prod.exists, List.mem_zipIdx_iff_getElem?, List.getElem?_map, Option.map_eq_some_iff, Prod.mk.injEq,
    Function.comp_apply, Option.bind_eq_some_iff]
  constructor
  · rintro ⟨_, _, ⟨r, hr, rfl⟩, t, ht, rfl, rfl⟩
    exact ⟨r, hr, ht⟩
  · rintro ⟨r, hr, ht⟩
    exact ⟨_, column, ⟨r, hr, rfl⟩, t, ht, rfl, rfl⟩

theorem getElem?_signatures (hs : dfa.states[s]? = some state) (hb : blocks[s]? = some b) :
    (signatures dfa.moveRows blocks)[s]? =
      some ⟨b, (dfa.moveRow state).map fun move => (move.1, blocks.toArray.getD move.2 0)⟩ := by
  rw [signatures, List.getElem?_zipWith, hb, moveRows, List.getElem?_map, Array.getElem?_toList, hs]
  rfl

section Stable
variable (pos : 0 < dfa.stateCount)
include pos

/-- The states of a block lead from a column to the same block. -/
theorem blockOf_column (hs : dfa.states[s]? = some state) (hs' : dfa.states[s']? = some state')
    (same : dfa.blocks[s]? = dfa.blocks[s']?) (column : Nat) :
    (dfa.columns.ranges[column]?.bind fun r => state.target? r.lo).map dfa.blockOf =
      (dfa.columns.ranges[column]?.bind fun r => state'.target? r.lo).map dfa.blockOf := by
  obtain ⟨partitions, stable⟩ := dfa.stable_blocks pos
  have there : s < dfa.blocks.length := partitions.length ▸ (Array.getElem?_eq_some_iff.mp hs).1
  have hb := List.getElem?_eq_getElem there
  have signature := numberEqual_refines (signatures dfa.moveRows dfa.blocks) s s'
  rw [← refineBlocks_eq, stable, getElem?_signatures hs hb, getElem?_signatures hs' (same ▸ hb), Option.some.injEq,
    Signature.mk.injEq] at signature
  have row (state : Dfa.State) (b : Nat) :
      (column, b) ∈ (dfa.moveRow state).map (fun move => (move.1, dfa.blocks.toArray.getD move.2 0)) ↔
        (dfa.columns.ranges[column]?.bind fun r => state.target? r.lo).map dfa.blockOf = some b := by
    simp only [List.mem_map, Prod.exists, mem_moveRow, Prod.mk.injEq, Option.map_eq_some_iff]
    constructor
    · rintro ⟨_, t, ht, rfl, same⟩
      exact ⟨t, ht, same⟩
    · rintro ⟨t, ht, same⟩
      exact ⟨column, t, ht, rfl, same⟩
  refine Option.ext fun b => ?_
  rw [← row, ← row, (signature same).2]

/-- **The states of a block lead to the same block.** -/
theorem blockOf_target? (h : dfa.WellFormed) (hs : dfa.states[s]? = some state) (hs' : dfa.states[s']? = some state')
    (same : dfa.blocks[s]? = dfa.blocks[s']?) (c : Char) :
    (state.target? c).map dfa.blockOf = (state'.target? c).map dfa.blockOf := by
  have there := Array.mem_of_getElem? hs
  have there' := Array.mem_of_getElem? hs'
  by_cases hc : c ∈ dfa.columns
  · obtain ⟨r, hr, hcr⟩ := hc
    obtain ⟨column, hcolumn⟩ := List.mem_iff_getElem?.mp hr
    have first := blockOf_column pos hs hs' same column
    rw [hcolumn, Option.bind_some, Option.bind_some] at first
    rw [h.isSeparate.target?_congr there hr hcr r.lo_mem, h.isSeparate.target?_congr there' hr hcr r.lo_mem, first]
  · rw [h.isSeparate.target?_eq_none there hc, h.isSeparate.target?_eq_none there' hc]

end Stable

/-! ## Merged states -/

theorem mem_group (dfa : Dfa) (hb : b < blockCount blocks) : ∃ group, (dfa.groups blocks)[b]? = some group ∧
    ∀ state, state ∈ group ↔ ∃ s : Nat, blocks[s]? = some b ∧ dfa.states[s]? = some state := by
  refine ⟨((blocks.zip dfa.states.toList).filter (·.1 = b)).map Prod.snd, ?_, fun state => ?_⟩
  · rw [groups, List.getElem?_map, List.getElem?_range hb]
    rfl
  · simp only [List.mem_map, List.mem_filter, mem_zip_iff, decide_eq_true_eq, Prod.exists, Array.getElem?_toList]
    constructor
    · rintro ⟨_, _, ⟨⟨s, hs, hstate⟩, rfl⟩, rfl⟩
      exact ⟨s, hs, hstate⟩
    · rintro ⟨s, hs, hstate⟩
      exact ⟨b, state, ⟨⟨s, hs, hstate⟩, rfl⟩, rfl⟩

/-- The state for a block, built from the ranges of its first state. -/
theorem mergeBlock_cons (blockOf : Nat → Nat) (first : Dfa.State) (rest : List Dfa.State) :
    mergeBlock blockOf (first :: rest) =
      (State.isolated (rest.foldl (fun members state => ascending (members ++ state.members)) first.members)
        first.verdict).addEdges ((State.entries first.edges).map fun p => (p.1, blockOf p.2)) := by
  simp only [mergeBlock, State.addEdges, State.entries, List.map_flatMap, List.map_map, Function.comp_def]

/-- **The state for a block does what its first state does**, with blocks for states. -/
theorem mergeBlock_spec {first : Dfa.State} (h : State.Separate first.edges) (blockOf : Nat → Nat)
    (rest : List Dfa.State) :
    (mergeBlock blockOf (first :: rest)).verdict = first.verdict ∧
      State.Separate (mergeBlock blockOf (first :: rest)).edges ∧
      ∀ c b, State.Leads (mergeBlock blockOf (first :: rest)).edges c b ↔
        ∃ t, State.Leads first.edges c t ∧ blockOf t = b := by
  let pairs := (State.entries first.edges).map fun p => (p.1, blockOf p.2)
  have extended (members : List Nat) : (State.isolated members first.verdict).Extends pairs _ :=
    State.extends_addEdges State.separate_nil (List.pairwise_map.mpr h.entries_apart)
      fun _ _ _ _ _ => State.not_leads_nil
  rw [mergeBlock_cons]
  refine ⟨(extended _).verdict_eq, (extended _).separate, fun c b => ?_⟩
  simp only [(extended _).leads_iff, State.leads_iff_entries, pairs]
  constructor
  · rintro (⟨r, entry, -⟩ | ⟨p, hp, same, hc⟩)
    · exact absurd entry List.not_mem_nil
    · obtain ⟨q, hq, rfl⟩ := List.mem_map.mp hp
      exact ⟨q.2, ⟨q.1, hq, hc⟩, same⟩
  · rintro ⟨t, ⟨r, hr, hc⟩, same⟩
    exact .inr ⟨_, List.mem_map_of_mem hr, same, hc⟩

/-- The first state of a block, and the state for the block that it gives. -/
theorem exists_first (many : ¬dfa.stateCount ≤ 1) (hb : b < blockCount dfa.blocks) : ∃ (s : Nat) (first : Dfa.State)
    (rest : List Dfa.State), dfa.blocks[s]? = some b ∧ dfa.states[s]? = some first ∧
      dfa.minimize.states[b]? = some (mergeBlock dfa.blockOf (first :: rest)) := by
  obtain ⟨partitions, -⟩ := dfa.stable_blocks (by omega)
  obtain ⟨group, hgroup, mem⟩ := dfa.mem_group hb
  have merged : dfa.minimize.states[b]? = some (mergeBlock dfa.blockOf group) := by
    rw [minimize, if_neg many, List.getElem?_toArray, List.getElem?_map, hgroup]
    rfl
  cases group with
  | nil =>
    obtain ⟨s, hs⟩ := List.mem_iff_getElem?.mp (partitions.canonical.lt_blockCount_iff.mp hb)
    obtain ⟨state, hstate⟩ := partitions.exists_state hs
    exact absurd ((mem state).mpr ⟨s, hs, hstate⟩) List.not_mem_nil
  | cons first rest =>
    obtain ⟨s, hs, hfirst⟩ := (mem first).mp List.mem_cons_self
    exact ⟨s, first, rest, hs, hfirst, merged⟩

theorem stateCount_minimize (many : ¬dfa.stateCount ≤ 1) : dfa.minimize.stateCount = blockCount dfa.blocks := by
  rw [minimize, if_neg many, stateCount, List.size_toArray, List.length_map, groups, List.length_map, List.length_range]

theorem blockOf_lt (many : ¬dfa.stateCount ≤ 1) {t : Nat} (ht : t < dfa.stateCount) :
    dfa.blocks[t]? = some (dfa.blockOf t) ∧ dfa.blockOf t < blockCount dfa.blocks := by
  obtain ⟨partitions, -⟩ := dfa.stable_blocks (by omega)
  have hb := List.getElem?_eq_getElem (partitions.length.symm ▸ ht)
  rw [blockOf_eq hb]
  exact ⟨hb, partitions.canonical.lt_blockCount_iff.mpr (List.mem_of_getElem? hb)⟩

namespace WellFormed
variable (h : dfa.WellFormed)
include h

theorem minimize : dfa.minimize.WellFormed := by
  by_cases few : dfa.stateCount ≤ 1
  · rwa [Dfa.minimize, if_pos few]
  -- every state is that for some block
  have merged : ∀ state ∈ dfa.minimize.states, ∃ first ∈ dfa.states, ∃ rest,
      state = mergeBlock dfa.blockOf (first :: rest) := by
    intro state hstate
    obtain ⟨b, hb, hstate⟩ := Array.mem_iff_getElem.mp hstate
    have lt : b < blockCount dfa.blocks := by rwa [← stateCount_minimize few]
    obtain ⟨s, first, rest, -, hfirst, merged⟩ := exists_first few lt
    rw [Array.getElem?_eq_getElem hb, hstate, Option.some.injEq] at merged
    exact ⟨first, Array.mem_of_getElem? hfirst, rest, merged⟩
  constructor
  · intro state hstate
    obtain ⟨first, hfirst, rest, rfl⟩ := merged state hstate
    exact (mergeBlock_spec (h.separate first hfirst) dfa.blockOf rest).2.1
  · intro state hstate c b leads
    obtain ⟨first, hfirst, rest, rfl⟩ := merged state hstate
    obtain ⟨t, ht, rfl⟩ := ((mergeBlock_spec (h.separate first hfirst) dfa.blockOf rest).2.2 c b).mp leads
    rw [stateCount_minimize few]
    exact (blockOf_lt few (h.lt_of_leads first hfirst c t ht)).2

/-- **Merged states step as the states of their blocks do**, and have their verdict. -/
theorem step_minimize (many : ¬dfa.stateCount ≤ 1) (hs : dfa.blocks[s]? = some b) :
    (∀ c, dfa.minimize.step b c = (dfa.step s c).map dfa.blockOf) ∧ dfa.minimize.verdict b = dfa.verdict s := by
  obtain ⟨partitions, -⟩ := dfa.stable_blocks (by omega)
  have hb := partitions.canonical.lt_blockCount_iff.mpr (List.mem_of_getElem? hs)
  obtain ⟨s', first, rest, hs', hfirst, merged⟩ := exists_first many hb
  obtain ⟨state, hstate⟩ := partitions.exists_state hs
  have separate := h.separate first (Array.mem_of_getElem? hfirst)
  obtain ⟨verdict, -, leads⟩ := mergeBlock_spec separate dfa.blockOf rest
  constructor
  · intro c
    have block := blockOf_target? (by omega) h hstate hfirst (hs.trans hs'.symm) c
    rw [step_eq_bind dfa, hstate, Option.bind_some, block]
    refine Option.ext fun t => ?_
    rw [h.minimize.step_eq_some_iff merged, leads, Option.map_eq_some_iff]
    simp only [State.target?_eq_some_iff separate]
  · have same := partitions.verdicts s s' (hs.trans hs'.symm)
    rw [List.getElem?_map, List.getElem?_map, Array.getElem?_toList, Array.getElem?_toList, hstate, hfirst] at same
    rw [verdict_eq merged, verdict_eq hstate, verdict]
    exact (Option.some.inj same).symm

/-- **The automaton with merged states agrees with the automaton.** -/
theorem agree_minimize : Matcher.Agree dfa dfa.minimize := by
  by_cases few : dfa.stateCount ≤ 1
  · rw [Dfa.minimize, if_pos few]
    exact Matcher.Agree.refl dfa
  obtain ⟨partitions, -⟩ := dfa.stable_blocks (by omega)
  have nonempty : dfa.blocks ≠ [] := List.ne_nil_of_length_pos (by rw [partitions.length]; omega)
  refine ⟨fun s b => dfa.blocks[s]? = some b, partitions.canonical.getElem?_zero nonempty, ?_, ?_⟩
  · intro s b hs c
    change Option.Rel _ (dfa.step s c) (dfa.minimize.step b c)
    rw [(h.step_minimize few hs).1 c]
    cases ht : dfa.step s c with
    | none => exact .none
    | some t =>
      obtain ⟨state, hstate⟩ := partitions.exists_state hs
      have lt := h.lt_of_leads state (Array.mem_of_getElem? hstate) c t ((h.step_eq_some_iff hstate).mp ht)
      exact .some (blockOf_lt few lt).1
  · intro s b hs
    exact (h.step_minimize few hs).2.symm

end WellFormed
end Dfa
end TableParsing
