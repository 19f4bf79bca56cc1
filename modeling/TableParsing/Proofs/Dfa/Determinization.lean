import TableParsing.Proofs.Dfa.Melted
import TableParsing.Proofs.Dfa.Subset
import TableParsing.Proofs.Dfa.Words

/-! # Determinization is exact

The automaton of the sets reads what the simulation reads: behind a word it is in the state with the number of the
set that the simulation is in, or both are stuck (`RankedNfa.run_toDfa`).  No state is there in vain, since every set
that is found is the one behind some word, and no set has two states.

Ranges that lead to the same set are melted into one edge, so a state has one edge for each state that it leads to.
**All this together is `RankedNfa.Determines`**, and it holds of every automaton with choices whose edges lead to states
of it (`determines_toDfa`). -/

namespace TableParsing

/-! ## Runs -/

namespace Nfa

theorem foldl_step_nil (nfa : Nfa) (word : List Char) : word.foldl nfa.step [] = [] := by
  induction word with
  | nil => rfl
  | cons c word ih => rw [List.foldl_cons, step_nil, ih]

end Nfa

namespace RankedNfa

variable {ranked : RankedNfa} {set : List Nat} {s : Nat}

section Closed
variable (closed : ranked.nfa.StaysInside) (labelled : ranked.nfa.HasWellFormedLabels)
include closed labelled

/-- A run from the state of a set goes where the simulation goes from the set. -/
theorem run_toDfa_from (hs : ranked.nfa.reachableSets.elements[s]? = some set) (word : List Char) :
    ranked.toDfa.run s word = if word.foldl ranked.nfa.step set = [] then none
      else some (ranked.nfa.reachableSets.numberOf (word.foldl ranked.nfa.step set)) := by
  have found : set ∈ ranked.nfa.reachableSets.toList := (Numbering.mem_toList_iff _).mpr ⟨s, hs⟩
  induction word generalizing s set with
  | nil =>
    rw [List.foldl_nil, if_neg (Nfa.ne_nil_of_mem_reachableSets closed found), Numbering.numberOf_eq _ hs]
    rfl
  | cons c word ih =>
    rw [Dfa.run, step_toDfa closed labelled hs, List.foldl_cons]
    by_cases stuck : ranked.nfa.step set c = []
    · rw [if_pos stuck, stuck, Nfa.foldl_step_nil, if_pos rfl]
      rfl
    · have next := Nfa.step_mem_reachableSets closed labelled found stuck
      rw [if_neg stuck, Option.bind_some]
      exact ih (Numbering.getElem?_numberOf _ next) next

/-- **A run is stuck where the simulation is**, and comes to the number of its set otherwise. -/
theorem run_toDfa (word : List Char) : ranked.toDfa.run 0 word = if ranked.nfa.run word = [] then none
    else some (ranked.nfa.reachableSets.numberOf (ranked.nfa.run word)) :=
  run_toDfa_from closed labelled getElem?_discover_singleton word

theorem run_mem_reachableSets {word : List Char} (ne : ranked.nfa.run word ≠ []) :
    ranked.nfa.run word ∈ ranked.nfa.reachableSets.toList := by
  induction word using List.reverseRecOn with
  | nil => exact (Numbering.mem_toList_iff _).mpr ⟨0, getElem?_discover_singleton⟩
  | append_singleton word c ih =>
    have step : ranked.nfa.run (word ++ [c]) = ranked.nfa.step (ranked.nfa.run word) c := Nfa.run_append
    rw [step] at ne ⊢
    have before : ranked.nfa.run word ≠ [] := fun stuck => ne (by rw [stuck, Nfa.step_nil])
    exact Nfa.step_mem_reachableSets closed labelled (ih before) ne

end Closed

/-! ## States -/

theorem exists_set_of_getElem?_states {state : Dfa.State} (h : ranked.toDfa.states[s]? = some state) :
    ∃ set, ranked.nfa.reachableSets.elements[s]? = some set ∧ ranked.stateOf ranked.nfa.reachableSets set = state := by
  rw [toDfa, Array.getElem?_map] at h
  exact Option.map_eq_some_iff.mp h

theorem members_stateOf (labelled : ranked.nfa.HasWellFormedLabels) (sets : Numbering (List Nat)) (set : List Nat) :
    (ranked.stateOf sets set).members = set := (extends_stateOf labelled sets set).members_eq

theorem melted_stateOf (sets : Numbering (List Nat)) (set : List Nat) :
    Dfa.State.Melted (ranked.stateOf sets set).edges := by
  rw [stateOf_eq_addEdges]
  exact Dfa.State.melted_nil.addEdges _

/-- Whether a verdict is that of the lowest slot in a set of states; without a slot the set is rejected. -/
def Awards (ranked : RankedNfa) (set : List Nat) (verdict : Verdict) : Prop :=
  ((∀ s ∈ set, ranked.nfa.slot? s = none) ∧ verdict = .reject) ∨
  ∃ s ∈ set, ∃ slot, ranked.nfa.slot? s = some slot ∧
    (∀ t ∈ set, ∀ other, ranked.nfa.slot? t = some other → slot ≤ other) ∧
    verdict = ranked.slotVerdicts.getD slot .reject

theorem awards_verdict (ranked : RankedNfa) (set : List Nat) : ranked.Awards set (ranked.verdict set) := by
  rw [verdict]
  cases lowest : (ranked.nfa.slots set).min? with
  | none =>
    have none := List.min?_eq_none_iff.mp lowest
    exact .inl ⟨List.filterMap_eq_nil_iff.mp none, rfl⟩
  | some slot =>
    obtain ⟨mem, le⟩ := List.min?_eq_some_iff.mp lowest
    obtain ⟨s, hs, hslot⟩ := List.mem_filterMap.mp mem
    exact .inr ⟨s, hs, slot, hslot, fun t ht other hother => le other (List.mem_filterMap.mpr ⟨t, ht, hother⟩), rfl⟩

section Closed
variable (closed : ranked.nfa.StaysInside) (labelled : ranked.nfa.HasWellFormedLabels)
include closed labelled

theorem pairwise_members_toDfa {state : Dfa.State} (h : state ∈ ranked.toDfa.states) :
    state.members.Pairwise (· < ·) := by
  obtain ⟨set, hset, rfl⟩ := Array.mem_map.mp h
  rw [members_stateOf labelled]
  exact (Nfa.isSet_of_mem_reachableSets closed (Array.mem_toList_iff.mpr hset)).ascending

/-- Every state is come to with the word behind which its set was found. -/
theorem reaches_toDfa (lt : s < ranked.toDfa.stateCount) : ranked.toDfa.Reaches s := by
  obtain ⟨set, hs, -⟩ := exists_set_of_getElem?_states (Array.getElem?_eq_getElem lt)
  have found : set ∈ ranked.nfa.reachableSets.toList := (Numbering.mem_toList_iff _).mpr ⟨s, hs⟩
  obtain ⟨word, rfl⟩ := Nfa.exists_run_of_mem_reachableSets found
  refine ⟨word, ?_⟩
  rw [run_toDfa closed labelled, if_neg (Nfa.ne_nil_of_mem_reachableSets closed found), Numbering.numberOf_eq _ hs]

theorem run_toDfa_eq_none_iff {word : List Char} :
    ranked.toDfa.run 0 word = none ↔ ranked.nfa.run word = [] := by
  rw [run_toDfa closed labelled]
  by_cases stuck : ranked.nfa.run word = []
  · exact iff_of_true (if_pos stuck) stuck
  · exact iff_of_false (by rw [if_neg stuck]; exact Option.some_ne_none _) stuck

/-- The state that a run comes to stands for the set of the simulation. -/
theorem getElem?_states_of_run {word : List Char} (h : ranked.toDfa.run 0 word = some s) :
    ranked.toDfa.states[s]? = some (ranked.stateOf ranked.nfa.reachableSets (ranked.nfa.run word)) := by
  rw [run_toDfa closed labelled] at h
  obtain ⟨ne, same⟩ := Option.ite_none_left_eq_some.mp h
  have there := Numbering.getElem?_numberOf _ (run_mem_reachableSets closed labelled ne)
  rw [Option.some.inj same] at there
  exact getElem?_states there

end Closed

/-- No set has two states. -/
theorem members_inj_toDfa (labelled : ranked.nfa.HasWellFormedLabels) {t : Nat} {state state' : Dfa.State}
    (hs : ranked.toDfa.states[s]? = some state) (ht : ranked.toDfa.states[t]? = some state')
    (same : state.members = state'.members) : s = t := by
  obtain ⟨set, hset, rfl⟩ := exists_set_of_getElem?_states hs
  obtain ⟨set', hset', rfl⟩ := exists_set_of_getElem?_states ht
  rw [members_stateOf labelled, members_stateOf labelled] at same
  exact Numbering.elements_inj _ hset (same ▸ hset')

theorem nodup_targets_toDfa {state : Dfa.State} (h : state ∈ ranked.toDfa.states) :
    (state.edges.map Prod.snd).Nodup := by
  obtain ⟨set, -, rfl⟩ := Array.mem_map.mp h
  exact (melted_stateOf _ set).nodup

/-! ## Exactness -/

/-- Whether an automaton is made of the sets of a simulation, each of which is a state of it, and of nothing else. -/
structure Determines (ranked : RankedNfa) (dfa : Dfa) : Prop where
  /-- A state stands for an ascending list of states without repetition. -/
  ascending : ∀ state ∈ dfa.states, state.members.Pairwise (· < ·)
  members_inj : ∀ (s t : Nat) state state', dfa.states[s]? = some state → dfa.states[t]? = some state' →
    state.members = state'.members → s = t
  reaches : ∀ s < dfa.stateCount, dfa.Reaches s
  /-- A state has at most one edge to each state. -/
  nodup_targets : ∀ state ∈ dfa.states, (state.edges.map Prod.snd).Nodup
  /-- The labels of a state share no character. -/
  separate : dfa.IsSeparate
  /-- A run is stuck exactly if the simulation is. -/
  stuck_iff : ∀ word, dfa.run 0 word = none ↔ ranked.nfa.run word = []
  /-- Otherwise it comes to the state that stands for the set of the simulation. -/
  follows : ∀ word s, dfa.run 0 word = some s → ∃ state, dfa.states[s]? = some state ∧
    state.members = ranked.nfa.run word ∧ ranked.Awards state.members state.verdict

/-- **Determinization is exact.**  The searches for closures and for the sets end by themselves, and the automaton that
is made of the sets does what the simulation does. -/
theorem determines_toDfa (closed : ranked.nfa.StaysInside) (labelled : ranked.nfa.HasWellFormedLabels) :
    (∀ seeds, (∀ s ∈ seeds, s < ranked.nfa.stateCount) →
      Exhausts ranked.nfa.skips 0 (.ofList seeds) (discover ranked.nfa.skips ranked.nfa.stateCount seeds)) ∧
    Exhausts (fun set => (ranked.nfa.moves set).map Prod.snd) 0 (.ofList [ranked.nfa.begin])
      ranked.nfa.reachableSets ∧
    ranked.Determines ranked.toDfa := by
  refine ⟨fun _ => closed.exhausts_closure, Nfa.exhausts_reachableSets closed, ?_⟩
  constructor
  case ascending => exact fun _ => pairwise_members_toDfa closed labelled
  case members_inj => exact fun _ _ _ _ => members_inj_toDfa labelled
  case reaches => exact fun _ => reaches_toDfa closed labelled
  case nodup_targets => exact fun _ => nodup_targets_toDfa
  case separate => exact (wellFormed_toDfa closed labelled).isSeparate
  case stuck_iff => exact fun _ => run_toDfa_eq_none_iff closed labelled
  case follows =>
    intro word s hs
    refine ⟨_, getElem?_states_of_run closed labelled hs, members_stateOf labelled _ _, ?_⟩
    rw [members_stateOf labelled, (extends_stateOf labelled _ _).verdict_eq]
    exact awards_verdict ranked _

/-- A keyword before the words of letters, both of which an `a` is. -/
def keyword : RankedNfa where
  nfa := {
    stateCount := 4
    edges := [⟨0, 1, some ⟨[.single 'a']⟩⟩, ⟨0, 2, none⟩, ⟨2, 3, some ⟨[.between 'a' 'z']⟩⟩, ⟨3, 2, none⟩]
    accepts := [1, 3]
    start := 0 }
  slotVerdicts := [.token 0, .token 1]

theorem determines_toDfa_keyword : keyword.nfa.StaysInside ∧ keyword.nfa.HasWellFormedLabels ∧
    keyword.toDfa.run 0 ['1'] = none ∧
    (∃ s state, keyword.toDfa.run 0 ['a'] = some s ∧ keyword.toDfa.states[s]? = some state ∧
      1 ∈ state.members ∧ 3 ∈ state.members ∧ state.verdict = .token 0) := by
  have closed : keyword.nfa.StaysInside := ⟨by decide, by decide⟩
  have labels : ∀ e ∈ keyword.nfa.edges, ∀ label, e.label = some label →
      label = ⟨[.single 'a']⟩ ∨ label = ⟨[.between 'a' 'z']⟩ := by
    decide
  have labelled : keyword.nfa.HasWellFormedLabels := by
    have one (r : CharRange) : CharSet.WellFormed ⟨[r]⟩ := List.pairwise_singleton ..
    intro e he label hl
    rcases labels e he label hl with rfl | rfl <;> exact one _
  obtain ⟨-, -, determines⟩ := determines_toDfa closed labelled
  have stuck : keyword.nfa.run ['1'] = [] := by
    refine Nfa.step_eq_nil fun label hl reads => ?_
    obtain ⟨e, he, hlabel⟩ := Nfa.mem_labelsFrom.mp hl
    obtain ⟨s, -, he⟩ := List.mem_flatMap.mp he
    rcases labels e (Nfa.mem_outgoing he).1 label hlabel with rfl | rfl <;>
      exact absurd (CharSet.contains_iff.mpr reads) (by decide)
  refine ⟨closed, labelled, (determines.stuck_iff _).mpr stuck, ?_⟩
  have letter : ⟨1, some ⟨[.single 'a']⟩⟩ ∈ keyword.nfa.exits 0 := by decide
  have letters : ⟨3, some ⟨[.between 'a' 'z']⟩⟩ ∈ keyword.nfa.exits 2 := by decide
  have first : 1 ∈ keyword.nfa.run ['a'] := closed.mem_run.mpr (.read letter (by decide) (.stay 1))
  have second : 3 ∈ keyword.nfa.run ['a'] :=
    closed.mem_run.mpr (.skip (by decide) (.read letters (by decide) (.stay 3)))
  cases hs : keyword.toDfa.run 0 ['a'] with
  | none => exact absurd ((determines.stuck_iff _).mp hs) (List.ne_nil_of_mem first)
  | some s =>
    obtain ⟨state, there, members, awards⟩ := determines.follows _ _ hs
    rw [← members] at first second
    refine ⟨s, state, rfl, there, first, second, ?_⟩
    obtain ⟨none, -⟩ | ⟨t, ht, slot, -, lowest, same⟩ := awards
    · exact absurd (none 1 first) (by decide)
    · have slot_eq : slot = 0 := Nat.le_zero.mp (lowest 1 first 0 (by decide))
      rw [same, slot_eq]
      rfl

end RankedNfa
end TableParsing
