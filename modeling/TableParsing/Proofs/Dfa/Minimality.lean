import TableParsing.Proofs.Dfa.Melted
import TableParsing.Proofs.Dfa.Minimal
import TableParsing.Proofs.Dfa.Words

/-! # Minimal automata

Two states share a block exactly when no word tells them apart (`blocks_eq_iff`).  They share one only then, since a
state and the merged state for its block are alike (`alike_minimize`), and they do then, since no round parts alike
states.

So **the merged states are alike only when they are the same**, and in an automaton with that property every state is a
block by itself.  What is then built for each block is the state itself, as the edges of merged states are melted: a
second minimisation changes nothing. -/

namespace TableParsing
namespace Dfa

variable {dfa : Dfa} {blocks : List Nat} {s s' b b' : Nat} {state state' : Dfa.State}

theorem exists_state (hs : s < dfa.stateCount) : ∃ state, dfa.states[s]? = some state :=
  ⟨_, Array.getElem?_eq_getElem hs⟩

/-- Automata with the same states are the same, as the look-up tables are made of the states. -/
theorem ext_states {dfa' : Dfa} (h : dfa.states = dfa'.states) : dfa = dfa' := by
  obtain ⟨states, lookups, made⟩ := dfa
  obtain ⟨states', lookups', made'⟩ := dfa'
  subst h made made'
  rfl

/-! ## Rounds keep alike states together -/

/-- Whether alike states share a block. -/
def Joins (dfa : Dfa) (blocks : List Nat) : Prop :=
  ∀ s s', s < dfa.stateCount → s' < dfa.stateCount → Alike dfa dfa s s' → blocks[s]? = blocks[s']?

theorem joins_verdicts (dfa : Dfa) : dfa.Joins (numberEqual (dfa.states.toList.map State.verdict)) := by
  intro s s' hs hs' alike
  have verdict {i : Nat} (hi : i < dfa.stateCount) :
      (dfa.states.toList.map State.verdict)[i]? = some (dfa.verdict i) := by
    obtain ⟨state, hstate⟩ := exists_state hi
    rw [List.getElem?_map, Array.getElem?_toList, hstate, Option.map_some, verdict_eq hstate]
  refine refines_numberEqual _ s s' ?_
  rw [verdict hs, verdict hs', alike.verdict_eq]

/-- The columns that lead on from a state, with what the states that they lead to are mapped to. -/
theorem map_moveRow (dfa : Dfa) (state : Dfa.State) (blockOf : Nat → Nat) :
    (dfa.moveRow state).map (fun move => (move.1, blockOf move.2)) =
      (dfa.columns.ranges.map fun r => (state.target? r.lo).map blockOf).zipIdx.filterMap
        fun (block, column) => block.map (column, ·) := by
  have mapped : (dfa.columns.ranges.map fun r => (state.target? r.lo).map blockOf) =
      (state.targets (dfa.columns.ranges.map CharRange.lo)).map (Option.map blockOf) := by
    rw [State.targets_eq_map, List.map_map, List.map_map]
    rfl
  rw [moveRow, mapped, List.zipIdx_map, List.filterMap_map, List.map_filterMap]
  refine List.filterMap_congr fun p _ => ?_
  obtain ⟨target, column⟩ := p
  cases target <;> rfl

namespace WellFormed
variable (h : dfa.WellFormed)
include h

theorem lt_of_target? {c : Char} {t : Nat} (hs : dfa.states[s]? = some state) (ht : state.target? c = some t) :
    t < dfa.stateCount := by
  have there := Array.mem_of_getElem? hs
  exact h.lt_of_leads state there c t ((State.target?_eq_some_iff (h.separate state there)).mp ht)

/-- Alike states lead to the same blocks when alike states share a block. -/
theorem map_target?_of_joins (joins : dfa.Joins blocks) (hs : dfa.states[s]? = some state)
    (hs' : dfa.states[s']? = some state') (alike : Alike dfa dfa s s') (c : Char) :
    (state.target? c).map (blocks.toArray.getD · 0) = (state'.target? c).map (blocks.toArray.getD · 0) := by
  have step := alike.step c
  rw [step_eq_bind, hs, Option.bind_some, step_eq_bind, hs', Option.bind_some] at step
  generalize ht : state.target? c = after, ht' : state'.target? c = after' at step
  cases step with
  | none => rfl
  | some alike =>
    have block := joins _ _ (h.lt_of_target? hs ht) (h.lt_of_target? hs' ht') alike
    rw [Option.map_some, Option.map_some, Array.getD_eq_getD_getElem?, Array.getD_eq_getD_getElem?,
      List.getElem?_toArray, List.getElem?_toArray, block]

/-- **A round parts no alike states.** -/
theorem joins_refineBlocks (length : blocks.length = dfa.stateCount) (joins : dfa.Joins blocks) :
    dfa.Joins (refineBlocks dfa.moveRows blocks) := by
  intro s s' hs hs' alike
  obtain ⟨state, hstate⟩ := exists_state hs
  obtain ⟨state', hstate'⟩ := exists_state hs'
  have same := joins s s' hs hs' alike
  have hb := List.getElem?_eq_getElem (length.symm ▸ hs)
  have moves : (dfa.moveRow state).map (fun move => (move.1, blocks.toArray.getD move.2 0)) =
      (dfa.moveRow state').map fun move => (move.1, blocks.toArray.getD move.2 0) := by
    rw [map_moveRow dfa state (blocks.toArray.getD · 0), map_moveRow dfa state' (blocks.toArray.getD · 0)]
    simp only [h.map_target?_of_joins joins hstate hstate' alike]
  rw [refineBlocks_eq]
  refine refines_numberEqual _ s s' ?_
  rw [getElem?_signatures hstate hb, getElem?_signatures hstate' (same ▸ hb), moves]

theorem joins_blocks : dfa.Joins dfa.blocks := by
  let Inv (blocks : List Nat) : Prop := dfa.Partitions blocks ∧ dfa.Joins blocks
  have keeps (blocks : List Nat) (inv : Inv blocks) : Inv (refineBlocks dfa.moveRows blocks) :=
    ⟨inv.1.refineBlocks, h.joins_refineBlocks inv.1.length inv.2⟩
  exact (stabilize_keeps keeps _ ⟨dfa.partitions_verdicts, dfa.joins_verdicts⟩).2

/-! ## Merged states behave as their members -/

/-- A state that a state of a block leads to has a block. -/
theorem getElem?_blocks_of_step {c : Char} {t : Nat} (many : ¬dfa.stateCount ≤ 1) (hs : dfa.blocks[s]? = some b)
    (ht : dfa.step s c = some t) : dfa.blocks[t]? = some (dfa.blockOf t) := by
  obtain ⟨partitions, -⟩ := dfa.stable_blocks (by omega)
  obtain ⟨state, hstate⟩ := partitions.exists_state hs
  rw [step_eq_bind, hstate, Option.bind_some] at ht
  exact (blockOf_lt many (h.lt_of_target? hstate ht)).1

/-- **A state and the merged state for its block are alike.** -/
theorem alike_minimize (many : ¬dfa.stateCount ≤ 1) (hs : dfa.blocks[s]? = some b) : Alike dfa dfa.minimize s b := by
  intro word
  induction word generalizing s b with
  | nil => rw [outcome_nil, outcome_nil, (h.step_minimize many hs).2]
  | cons c word ih =>
    rw [outcome_cons, outcome_cons, (h.step_minimize many hs).1]
    cases ht : dfa.step s c with
    | none => rfl
    | some t => exact ih (h.getElem?_blocks_of_step many hs ht)

/-- **Two states share a block exactly when no word tells them apart.** -/
theorem blocks_eq_iff (many : ¬dfa.stateCount ≤ 1) (hs : s < dfa.stateCount) (hs' : s' < dfa.stateCount) :
    dfa.blocks[s]? = dfa.blocks[s']? ↔ Alike dfa dfa s s' := by
  refine ⟨fun same => ?_, h.joins_blocks s s' hs hs'⟩
  have hb := (blockOf_lt many hs).1
  exact (h.alike_minimize many hb).trans (h.alike_minimize many (same ▸ hb)).symm

/-- The merged state for a state's block, or the state itself if nothing is merged, is alike from the beginning. -/
theorem alike_minimize_zero : Alike dfa dfa.minimize 0 0 := by
  by_cases few : dfa.stateCount ≤ 1
  · rw [Dfa.minimize, if_pos few]
    exact fun _ => rfl
  · obtain ⟨partitions, -⟩ := dfa.stable_blocks (by omega)
    have nonempty : dfa.blocks ≠ [] := List.ne_nil_of_length_pos (by rw [partitions.length]; omega)
    exact h.alike_minimize few (partitions.canonical.getElem?_zero nonempty)

/-- **Some word tells two merged states apart.** -/
theorem eq_of_alike_minimize (hb : b < dfa.minimize.stateCount) (hb' : b' < dfa.minimize.stateCount)
    (alike : Alike dfa.minimize dfa.minimize b b') : b = b' := by
  by_cases few : dfa.stateCount ≤ 1
  · rw [Dfa.minimize, if_pos few] at hb hb'
    omega
  · rw [stateCount_minimize few] at hb hb'
    obtain ⟨s, first, -, hs, hfirst, -⟩ := exists_first few hb
    obtain ⟨s', first', -, hs', hfirst', -⟩ := exists_first few hb'
    have lt : s < dfa.stateCount := (Array.getElem?_eq_some_iff.mp hfirst).1
    have lt' : s' < dfa.stateCount := (Array.getElem?_eq_some_iff.mp hfirst').1
    have members := ((h.alike_minimize few hs).trans alike).trans (h.alike_minimize few hs').symm
    have same := (h.blocks_eq_iff few lt lt').mpr members
    rw [hs, hs'] at same
    exact Option.some.inj same

/-! ## Reachable states -/

theorem run_minimize (many : ¬dfa.stateCount ≤ 1) (hs : dfa.blocks[s]? = some b) (word : List Char) :
    dfa.minimize.run b word = (dfa.run s word).map dfa.blockOf := by
  induction word generalizing s b with
  | nil => rw [run, run, Option.map_some, blockOf_eq hs]
  | cons c word ih =>
    rw [run, run, (h.step_minimize many hs).1]
    cases ht : dfa.step s c with
    | none => rfl
    | some t => exact ih (h.getElem?_blocks_of_step many hs ht)

/-- **The merged states for reachable states are reachable.** -/
theorem reaches_minimize (reaches : ∀ s < dfa.stateCount, dfa.Reaches s) (hb : b < dfa.minimize.stateCount) :
    dfa.minimize.Reaches b := by
  by_cases few : dfa.stateCount ≤ 1
  · rw [Dfa.minimize, if_pos few] at hb ⊢
    exact reaches b hb
  · rw [stateCount_minimize few] at hb
    obtain ⟨s, first, -, hs, hfirst, -⟩ := exists_first few hb
    obtain ⟨word, run⟩ := reaches s (Array.getElem?_eq_some_iff.mp hfirst).1
    obtain ⟨partitions, -⟩ := dfa.stable_blocks (by omega)
    have nonempty : dfa.blocks ≠ [] := List.ne_nil_of_length_pos (by rw [partitions.length]; omega)
    have zero := partitions.canonical.getElem?_zero nonempty
    exact ⟨word, by rw [h.run_minimize few zero, run, Option.map_some, blockOf_eq hs]⟩

end WellFormed

/-! ## Minimal automata are not changed -/

/-- Whether the states are as minimisation makes them: no two are alike, and their edges are melted. -/
structure IsMinimal (dfa : Dfa) : Prop extends dfa.WellFormed where
  eq_of_alike : ∀ s s', s < dfa.stateCount → s' < dfa.stateCount → Alike dfa dfa s s' → s = s'
  melted : ∀ state ∈ dfa.states, State.Melted state.edges

theorem melted_mergeBlock (blockOf : Nat → Nat) (group : List Dfa.State) :
    State.Melted (mergeBlock blockOf group).edges := by
  cases group with
  | nil => exact State.melted_nil
  | cons first rest => exact State.Melted.addEdges State.melted_nil _

theorem WellFormed.isMinimal_minimize (h : dfa.WellFormed) (many : ¬dfa.stateCount ≤ 1) : dfa.minimize.IsMinimal where
  toWellFormed := h.minimize
  eq_of_alike _ _ := h.eq_of_alike_minimize
  melted := by
    intro state hstate
    obtain ⟨b, hb, hstate⟩ := Array.mem_iff_getElem.mp hstate
    have lt : b < blockCount dfa.blocks := by rwa [← stateCount_minimize many]
    obtain ⟨s, first, rest, -, -, merged⟩ := exists_first many lt
    rw [Array.getElem?_eq_getElem hb, hstate, Option.some.injEq] at merged
    exact merged ▸ melted_mergeBlock dfa.blockOf (first :: rest)

namespace IsMinimal
variable (h : dfa.IsMinimal) (many : ¬dfa.stateCount ≤ 1)
include h many

/-- Every state is a block by itself. -/
theorem blocks_eq_range : dfa.blocks = List.range dfa.stateCount := by
  obtain ⟨partitions, -⟩ := dfa.stable_blocks (by omega)
  have nodup : dfa.blocks.Nodup := by
    refine List.nodup_iff_injective_get.mpr fun i j same => Fin.ext ?_
    have hi : i.1 < dfa.stateCount := partitions.length ▸ i.2
    have hj : j.1 < dfa.stateCount := partitions.length ▸ j.2
    refine h.eq_of_alike i.1 j.1 hi hj ((h.blocks_eq_iff many hi hj).mp ?_)
    rw [List.getElem?_eq_getElem i.2, List.getElem?_eq_getElem j.2]
    exact congrArg some same
  calc dfa.blocks = numberEqual dfa.blocks := partitions.canonical.symm
    _ = List.range dfa.blocks.length := numberEqual_of_nodup nodup
    _ = List.range dfa.stateCount := by rw [partitions.length]

/-- The block of a state has no other state. -/
theorem group_eq (hb : dfa.states[b]? = some state) : (dfa.groups dfa.blocks)[b]? = some [state] := by
  obtain ⟨partitions, -⟩ := dfa.stable_blocks (by omega)
  have lt : b < dfa.stateCount := (Array.getElem?_eq_some_iff.mp hb).1
  have known : b < blockCount dfa.blocks := by
    rw [partitions.canonical.lt_blockCount_iff, h.blocks_eq_range many, List.mem_range]
    exact lt
  rw [groups, List.getElem?_map, List.getElem?_range known, Option.map_some, Option.some.injEq]
  have nodup : (dfa.blocks.zip dfa.states.toList).Nodup := by
    refine List.Nodup.of_map Prod.fst ?_
    rw [List.map_fst_zip (Nat.le_of_eq partitions.length), h.blocks_eq_range many]
    exact List.nodup_range
  have single : (dfa.blocks.zip dfa.states.toList).filter (·.1 = b) = [(b, state)] := by
    refine List.perm_singleton.mp ((List.perm_ext_iff_of_nodup (nodup.filter _) (List.nodup_singleton _)).mpr ?_)
    rintro ⟨b', state'⟩
    rw [List.mem_filter, mem_zip_iff, List.mem_singleton, decide_eq_true_eq]
    constructor
    · rintro ⟨⟨i, hi, hstate'⟩, rfl⟩
      rw [h.blocks_eq_range many] at hi
      obtain ⟨hi, same⟩ := List.getElem?_eq_some_iff.mp hi
      rw [List.getElem_range] at same
      rw [same, Array.getElem?_toList, hb, Option.some.injEq] at hstate'
      rw [hstate']
    · rintro same
      cases same
      refine ⟨⟨b, ?_, ?_⟩, rfl⟩
      · rw [h.blocks_eq_range many, List.getElem?_range lt]
      · rw [Array.getElem?_toList, hb]
  rw [single]
  rfl

/-- The state that is built for a block of one state is that state. -/
theorem mergeBlock_singleton (hstate : state ∈ dfa.states) : mergeBlock dfa.blockOf [state] = state := by
  have targets : (State.entries state.edges).map (fun p => (p.1, dfa.blockOf p.2)) = State.entries state.edges := by
    refine (List.map_congr_left fun p hp => ?_).trans (List.map_id _)
    have leads : State.Leads state.edges p.1.lo p.2 := State.leads_iff_entries.mpr ⟨p.1, hp, p.1.lo_mem⟩
    have lt := h.lt_of_leads state hstate p.1.lo p.2 leads
    have block : dfa.blocks[p.2]? = some p.2 := by rw [h.blocks_eq_range many, List.getElem?_range lt]
    rw [blockOf_eq block]
    rfl
  rw [mergeBlock_cons, targets]
  exact State.addEdges_entries (h.melted state hstate)

/-- **Minimisation does not change a minimal automaton.** -/
theorem minimize_eq : dfa.minimize = dfa := by
  obtain ⟨partitions, -⟩ := dfa.stable_blocks (by omega)
  have count : dfa.minimize.stateCount = dfa.stateCount := by
    have last (b : Nat) : b < blockCount dfa.blocks ↔ b < dfa.stateCount := by
      rw [partitions.canonical.lt_blockCount_iff, h.blocks_eq_range many, List.mem_range]
    rw [stateCount_minimize many]
    exact Nat.le_antisymm (Nat.le_of_not_lt fun lt => Nat.lt_irrefl _ ((last _).mp lt))
      (Nat.le_of_not_lt fun lt => Nat.lt_irrefl _ ((last _).mpr lt))
  refine ext_states (Array.ext_getElem? fun b => ?_)
  by_cases hb : b < dfa.stateCount
  · obtain ⟨state, hstate⟩ := exists_state hb
    rw [hstate, minimize, if_neg many, List.getElem?_toArray, List.getElem?_map, h.group_eq many hstate]
    exact congrArg some (h.mergeBlock_singleton many (Array.mem_of_getElem? hstate))
  · rw [Array.getElem?_eq_none (Nat.le_of_not_lt hb)]
    exact Array.getElem?_eq_none (count.trans_le (Nat.le_of_not_lt hb))

end IsMinimal

/-! ## What minimisation achieves -/

/-- Whether all edges that minimisation follows lead to states. -/
theorem canMerge_of_valid (valid : ∀ state ∈ dfa.states, ∀ e ∈ state.edges, e.2 < dfa.stateCount)
    (h : dfa.WellFormed) : dfa.canMerge = true := by
  rw [canMerge, Bool.and_eq_true]
  constructor
  · rw [movesExist, List.all_eq_true]
    intro row hrow
    obtain ⟨state, hstate, rfl⟩ := List.mem_map.mp hrow
    rw [List.all_eq_true]
    rintro ⟨column, t⟩ move
    obtain ⟨r, -, ht⟩ := Option.bind_eq_some_iff.mp (mem_moveRow.mp move)
    obtain ⟨s, hs⟩ := List.mem_iff_getElem?.mp hstate
    exact decide_eq_true (h.lt_of_target? (Array.getElem?_toList.symm.trans hs) ht)
  · rw [List.all_eq_true]
    intro group hgroup
    obtain ⟨b, -, rfl⟩ := List.mem_map.mp hgroup
    cases hfirst : (((dfa.blocks.zip dfa.states.toList).filter (·.1 = b)).map Prod.snd).head? with
    | none => rfl
    | some first =>
      obtain ⟨p, hp, rfl⟩ := List.mem_map.mp (List.mem_of_mem_head? hfirst)
      have there : p.2 ∈ dfa.states := Array.mem_toList_iff.mp (List.of_mem_zip (List.mem_of_mem_filter hp)).2
      exact List.all_eq_true.mpr fun e he => decide_eq_true (valid p.2 there e he)

/-- What an automaton has to be in order to be `dfa` with its states merged as far as can be. -/
structure Minimises (dfa small : Dfa) : Prop where
  /-- Every word is stuck in both at the same character, or comes to the same verdict. -/
  outcome_eq : ∀ word, small.outcome 0 word = dfa.outcome 0 word
  longestMatch_eq : ∀ text, small.longestMatch text = dfa.longestMatch text
  /-- Some word tells two states apart. -/
  apart : ∀ s t, s < small.stateCount → t < small.stateCount → s ≠ t →
    ∃ word, small.outcome s word ≠ small.outcome t word
  reaches : (∀ s < dfa.stateCount, dfa.Reaches s) → ∀ s < small.stateCount, small.Reaches s
  minimize_eq : small.minimize = small

/-- **Minimisation keeps the behaviour, and merges all that can be merged**: whenever the edges of each state are
separate and lead to states. -/
theorem minimises_minimize (separate : ∀ state ∈ dfa.states, State.Separate state.edges)
    (valid : ∀ state ∈ dfa.states, ∀ e ∈ state.edges, e.2 < dfa.stateCount) :
    dfa.minimize? = some dfa.minimize ∧ dfa.Minimises dfa.minimize := by
  have h : dfa.WellFormed := ⟨separate, fun state hs c t ⟨label, he, _⟩ => valid state hs _ he⟩
  refine ⟨if_pos (.inr (canMerge_of_valid valid h)), ?_⟩
  constructor
  case outcome_eq => exact h.alike_minimize_zero.symm
  case longestMatch_eq => exact fun text => (h.alike_minimize_zero.matchFrom_eq 0 none text).symm
  case apart =>
    intro s t hs ht ne
    by_contra alike
    exact ne (h.eq_of_alike_minimize hs ht (not_exists_not.mp alike))
  case reaches => exact fun reaches s hs => h.reaches_minimize reaches hs
  case minimize_eq =>
    by_cases few : dfa.minimize.stateCount ≤ 1
    · rw [minimize, if_pos few]
    · have many : ¬dfa.stateCount ≤ 1 := fun le => few (by rwa [minimize, if_pos le])
      exact (h.isMinimal_minimize many).minimize_eq few

/-- Two states that read the same letter in turn. -/
def twins : Dfa where
  states := #[⟨[], [(⟨[.single 'a']⟩, 1)], .token 0⟩, ⟨[], [(⟨[.single 'a']⟩, 0)], .token 0⟩]

theorem minimises_minimize_twins : (∀ state ∈ twins.states, State.Separate state.edges) ∧
    (∀ state ∈ twins.states, ∀ e ∈ state.edges, e.2 < twins.stateCount) ∧
      twins.minimize? = some twins.minimize ∧ twins.Minimises twins.minimize := by
  have separate : ∀ state ∈ twins.states, State.Separate state.edges := by
    have single (t : Nat) : State.Separate [(⟨[.single 'a']⟩, t)] :=
      ⟨fun e he => List.mem_singleton.mp he ▸ List.pairwise_singleton .., List.pairwise_singleton ..⟩
    intro state hs
    rcases List.mem_pair.mp (Array.mem_toList_iff.mpr hs) with rfl | rfl
    · exact single 1
    · exact single 0
  have valid : ∀ state ∈ twins.states, ∀ e ∈ state.edges, e.2 < twins.stateCount := by decide
  exact ⟨separate, valid, minimises_minimize separate valid⟩

end Dfa
end TableParsing
