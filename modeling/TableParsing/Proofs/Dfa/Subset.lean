import Mathlib.Data.List.Sublists
import TableParsing.Dfa.Subset
import TableParsing.Proofs.CharSet.Elementary
import TableParsing.Proofs.Dfa.Lookup
import TableParsing.Proofs.Lexer.Matcher
import TableParsing.Proofs.Nfa.Labels

/-! # The subset construction follows the simulation

A set that a simulation comes through is an ascending list of states, so there are no more of them than sublists of all
states, and the search for them misses none (`step_mem_reachableSets`).  Characters that the labels out of a set do
not tell apart lead to the same set, so one move stands for a whole elementary range.  **In the automaton that is
built, the state with the number of a set does what the set does** (`agree_toDfa`). -/

namespace TableParsing
namespace Nfa

variable {nfa : Nfa} {set : List Nat} {c d : Char}

/-! ## Moves -/

theorem mem_labelsFrom {label : CharSet} :
    label ∈ nfa.labelsFrom set ↔ ∃ e ∈ set.flatMap nfa.outgoing, e.label = some label := by
  rw [labelsFrom, List.mem_filterMap]

theorem elementary_labelsFrom (h : nfa.HasWellFormedLabels) (set : List Nat) :
    (CharSet.elementary (nfa.labelsFrom set)).Elementary (nfa.labelsFrom set) := by
  refine CharSet.elementary_elementary fun label hlabel => ?_
  obtain ⟨e, he, hl⟩ := mem_labelsFrom.mp hlabel
  obtain ⟨s, -, he⟩ := List.mem_flatMap.mp he
  exact h e (mem_outgoing he).1 label hl

/-- Characters that no label out of a set tells apart lead to the same set. -/
theorem step_congr (h : ∀ label ∈ nfa.labelsFrom set, (c ∈ label ↔ d ∈ label)) : nfa.step set c = nfa.step set d := by
  have reads : ∀ e ∈ set.flatMap nfa.outgoing, e.reads c = e.reads d := by
    intro e he
    rw [Edge.reads, Edge.reads]
    cases hl : e.label with
    | none => rfl
    | some label =>
      have same := h label (mem_labelsFrom.mpr ⟨e, he, hl⟩)
      rw [← CharSet.contains_iff, ← CharSet.contains_iff] at same
      exact Bool.eq_iff_iff.mpr same
  have moved : nfa.move set c = nfa.move set d :=
    congrArg ascending (List.filterMap_congr fun e he => by rw [reads e he])
  rw [step, step, moved]

/-- A character of no label leads nowhere. -/
theorem step_eq_nil (h : ∀ label ∈ nfa.labelsFrom set, c ∉ label) : nfa.step set c = [] := by
  have moved : nfa.move set c = [] := by
    refine List.eq_nil_iff_forall_not_mem.mpr fun t ht => ?_
    obtain ⟨s, hs, label, edge, reads⟩ := mem_move.mp ht
    obtain ⟨e, he, same⟩ := List.mem_map.mp edge
    have hl : e.label = some label := congrArg Exit.label same
    exact h label (mem_labelsFrom.mpr ⟨e, List.mem_flatMap.mpr ⟨s, hs, he⟩, hl⟩) (CharSet.contains_iff.mp reads)
  rw [step, moved]
  refine List.eq_nil_iff_forall_not_mem.mpr fun t ht => ?_
  exact of_mem_discover (P := fun _ => False) (fun _ h => h.elim) (fun _ h => absurd h List.not_mem_nil)
    (mem_ascending.mp ht)

/-- Where a simulation is stuck it stays. -/
theorem step_nil (c : Char) : nfa.step [] c = [] := step_eq_nil fun _ h => absurd h List.not_mem_nil

theorem mem_moves {p : CharRange × List Nat} : p ∈ nfa.moves set ↔
    p.1 ∈ (CharSet.elementary (nfa.labelsFrom set)).ranges ∧ p.2 = nfa.step set p.1.lo ∧ p.2 ≠ [] := by
  have leads : ∀ r, (if (nfa.step set r.lo).isEmpty then none else some (r, nfa.step set r.lo)) = some p ↔
      r = p.1 ∧ p.2 = nfa.step set r.lo ∧ p.2 ≠ [] := by
    intro r
    rw [Option.ite_none_left_eq_some, Option.some.injEq, List.isEmpty_iff, Prod.ext_iff]
    constructor
    · rintro ⟨ne, rfl, target⟩
      exact ⟨rfl, target.symm, target ▸ ne⟩
    · rintro ⟨rfl, target, ne⟩
      exact ⟨target ▸ ne, rfl, target.symm⟩
  rw [moves, List.mem_filterMap]
  constructor
  · rintro ⟨r, hr, same⟩
    obtain ⟨rfl, h⟩ := (leads r).mp same
    exact ⟨hr, h⟩
  · rintro ⟨hr, h⟩
    exact ⟨p.1, hr, (leads p.1).mpr ⟨rfl, h⟩⟩

/-- **Moves lead where the simulation steps.** -/
theorem step_of_mem_moves (h : nfa.HasWellFormedLabels) {p : CharRange × List Nat} (hp : p ∈ nfa.moves set)
    (hc : c ∈ p.1) : nfa.step set c = p.2 := by
  obtain ⟨hr, target, -⟩ := mem_moves.mp hp
  have uniform := (elementary_labelsFrom h set).uniform p.1 hr
  rw [target]
  exact step_congr fun label hl => ⟨uniform label hl c hc _ p.1.lo_mem, uniform label hl _ p.1.lo_mem c hc⟩

theorem exists_move (h : nfa.HasWellFormedLabels) (ne : nfa.step set c ≠ []) : ∃ p ∈ nfa.moves set, c ∈ p.1 := by
  have columns := elementary_labelsFrom h set
  have covered : c ∈ CharSet.elementary (nfa.labelsFrom set) := by
    refine (columns.mem_iff c).mpr ?_
    by_contra none
    exact ne (step_eq_nil fun label hl hc => none ⟨label, hl, hc⟩)
  obtain ⟨r, hr, hc⟩ := covered
  have same : nfa.step set c = nfa.step set r.lo := step_congr fun label hl =>
    ⟨columns.uniform r hr label hl c hc _ r.lo_mem, columns.uniform r hr label hl _ r.lo_mem c hc⟩
  exact ⟨(r, nfa.step set r.lo), mem_moves.mpr ⟨hr, rfl, same ▸ ne⟩, hc⟩

theorem pairwise_moves (h : nfa.HasWellFormedLabels) (set : List Nat) :
    (nfa.moves set).Pairwise fun a b => a.1.Apart b.1 := by
  rw [moves, List.pairwise_filterMap]
  refine (elementary_labelsFrom h set).wellFormed.imp fun {r s} before p hp q hq => ?_
  obtain ⟨-, same⟩ := Option.ite_none_left_eq_some.mp hp
  obtain ⟨-, same'⟩ := Option.ite_none_left_eq_some.mp hq
  cases same
  cases same'
  exact before.apart

/-! ## Sets that are reached -/

/-- Whether a list is an ascending list of states. -/
structure IsSet (nfa : Nfa) (set : List Nat) : Prop where
  ascending : set.Pairwise (· < ·)
  lt : ∀ s ∈ set, s < nfa.stateCount

namespace StaysInside
variable (h : nfa.StaysInside)
include h

theorem isSet_closure {seeds : List Nat} (hseeds : ∀ s ∈ seeds, s < nfa.stateCount) :
    nfa.IsSet (nfa.closure seeds) := by
  exact ⟨pairwise_ascending _, fun _ ht => lt_of_mem_closure h.target_lt hseeds ht⟩

theorem isSet_begin : nfa.IsSet nfa.begin :=
  h.isSet_closure fun _ hs => List.mem_singleton.mp hs ▸ h.start_lt

theorem isSet_step (c : Char) : nfa.IsSet (nfa.step set c) :=
  h.isSet_closure fun _ ht => lt_of_mem_move h.target_lt ht

theorem isSet_of_mem_moves : ∀ target ∈ (nfa.moves set).map Prod.snd, nfa.IsSet target := by
  intro target htarget
  obtain ⟨p, hp, rfl⟩ := List.mem_map.mp htarget
  rw [(mem_moves.mp hp).2.1]
  exact h.isSet_step _

end StaysInside

/-- A set is a part of the list of all states. -/
theorem IsSet.mem_sublists (h : nfa.IsSet set) : set ∈ (List.range nfa.stateCount).sublists := by
  have sub : set ⊆ List.range nfa.stateCount := fun s hs => List.mem_range.mpr (h.lt s hs)
  have nodup : set.Nodup := h.ascending.imp Nat.ne_of_lt
  exact List.mem_sublists.mpr (List.sublist_of_subperm_of_pairwise (List.subperm_of_subset nodup sub) h.ascending
    List.pairwise_lt_range)

theorem length_sublists_range : (List.range nfa.stateCount).sublists.length = Nat.pow 2 nfa.stateCount := by
  rw [List.length_sublists, List.length_range]
  rfl

/-- Every set that is found is the one behind some word. -/
theorem exists_run_of_mem_reachableSets (h : set ∈ nfa.reachableSets.toList) : ∃ word, nfa.run word = set := by
  refine of_mem_discover (P := fun set => ∃ word, nfa.run word = set) ?_ (fun a ha => ⟨[], ?_⟩) h
  · rintro set ⟨word, rfl⟩ target htarget
    obtain ⟨p, hp, rfl⟩ := List.mem_map.mp htarget
    exact ⟨word ++ [p.1.lo], by rw [run_append, (mem_moves.mp hp).2.1]; rfl⟩
  · exact (List.mem_singleton.mp ha).symm

section Closed
variable (closed : nfa.StaysInside)
include closed

/-- Nothing but sets is found. -/
theorem isSet_of_mem_reachableSets (h : set ∈ nfa.reachableSets.toList) : nfa.IsSet set :=
  of_mem_discover (fun _ _ => closed.isSet_of_mem_moves)
    (fun _ ha => List.mem_singleton.mp ha ▸ closed.isSet_begin) h

/-- The search for the sets ends by itself. -/
theorem exhausts_reachableSets :
    Exhausts (fun set => (nfa.moves set).map Prod.snd) 0 (.ofList [nfa.begin]) nfa.reachableSets :=
  exhausts_discover (fun _ _ => closed.isSet_of_mem_moves) (fun _ ha => ha.mem_sublists)
    (Nat.le_of_eq length_sublists_range) fun _ ha => List.mem_singleton.mp ha ▸ closed.isSet_begin

/-- A simulation begins in some state, and what is found is never the empty set. -/
theorem ne_nil_of_mem_reachableSets (h : set ∈ nfa.reachableSets.toList) : set ≠ [] := by
  refine of_mem_discover (P := (· ≠ [])) (fun set _ target htarget => ?_) (fun a ha => ?_) h
  · obtain ⟨p, hp, rfl⟩ := List.mem_map.mp htarget
    exact (mem_moves.mp hp).2.2
  · have start : nfa.start ∈ nfa.run [] := closed.mem_run.mpr (.stay _)
    exact List.mem_singleton.mp ha ▸ List.ne_nil_of_mem start

/-- **No set is missed**: what a simulation steps to from a set that was found has been found too. -/
theorem step_mem_reachableSets (labelled : nfa.HasWellFormedLabels) (h : set ∈ nfa.reachableSets.toList)
    (ne : nfa.step set c ≠ []) : nfa.step set c ∈ nfa.reachableSets.toList := by
  obtain ⟨p, hp, hc⟩ := exists_move labelled ne
  rw [step_of_mem_moves labelled hp hc]
  exact mem_discover_of_mem_next (fun _ _ => closed.isSet_of_mem_moves) (fun _ ha => ha.mem_sublists)
    (Nat.le_of_eq length_sublists_range) (fun _ ha => List.mem_singleton.mp ha ▸ closed.isSet_begin) h
    (List.mem_map_of_mem hp)

end Closed

end Nfa

/-! ## The automaton of the sets -/

namespace RankedNfa

variable {ranked : RankedNfa} {set : List Nat} {s : Nat} {c : Char}

theorem stateOf_eq_addEdges (sets : Numbering (List Nat)) (set : List Nat) : ranked.stateOf sets set =
    (Dfa.State.isolated set (ranked.verdict set)).addEdges
      ((ranked.nfa.moves set).map fun p => (p.1, sets.numberOf p.2)) := by
  rw [Dfa.State.addEdges, List.foldl_map]
  rfl

theorem extends_stateOf (labelled : ranked.nfa.HasWellFormedLabels) (sets : Numbering (List Nat)) (set : List Nat) :
    (Dfa.State.isolated set (ranked.verdict set)).Extends
      ((ranked.nfa.moves set).map fun p => (p.1, sets.numberOf p.2)) (ranked.stateOf sets set) := by
  rw [stateOf_eq_addEdges]
  exact Dfa.State.extends_addEdges Dfa.State.separate_nil (List.pairwise_map.mpr (Nfa.pairwise_moves labelled set))
    fun _ _ _ _ _ => Dfa.State.not_leads_nil

/-- **The state of a set leads to the number of the set that the simulation steps to.** -/
theorem leads_stateOf (labelled : ranked.nfa.HasWellFormedLabels) (sets : Numbering (List Nat)) {t : Nat} :
    Dfa.State.Leads (ranked.stateOf sets set).edges c t ↔
      ranked.nfa.step set c ≠ [] ∧ sets.numberOf (ranked.nfa.step set c) = t := by
  rw [(extends_stateOf labelled sets set).leads_iff]
  constructor
  · rintro (none | ⟨p, hp, same, hc⟩)
    · exact absurd none Dfa.State.not_leads_nil
    · obtain ⟨move, hmove, rfl⟩ := List.mem_map.mp hp
      rw [Nfa.step_of_mem_moves labelled hmove hc]
      exact ⟨(Nfa.mem_moves.mp hmove).2.2, same⟩
  · rintro ⟨ne, same⟩
    obtain ⟨move, hmove, hc⟩ := Nfa.exists_move labelled ne
    rw [Nfa.step_of_mem_moves labelled hmove hc] at same
    exact .inr ⟨_, List.mem_map_of_mem hmove, same, hc⟩

theorem getElem?_states (hs : ranked.nfa.reachableSets.elements[s]? = some set) :
    ranked.toDfa.states[s]? = some (ranked.stateOf ranked.nfa.reachableSets set) := by
  rw [toDfa, Array.getElem?_map, hs]
  rfl

theorem wellFormed_toDfa (closed : ranked.nfa.StaysInside) (labelled : ranked.nfa.HasWellFormedLabels) :
    ranked.toDfa.WellFormed := by
  constructor
  · intro state hstate
    obtain ⟨set, -, rfl⟩ := Array.mem_map.mp hstate
    exact (extends_stateOf labelled _ set).separate
  · intro state hstate c t leads
    obtain ⟨set, hset, rfl⟩ := Array.mem_map.mp hstate
    obtain ⟨ne, rfl⟩ := (leads_stateOf labelled _).mp leads
    have size : ranked.toDfa.stateCount = ranked.nfa.reachableSets.size := Array.size_map
    rw [size]
    exact Numbering.numberOf_lt _ (Nfa.step_mem_reachableSets closed labelled (Array.mem_toList_iff.mpr hset) ne)

/-- **The automaton of the sets steps as the simulation does**, to the number of the set that is come to. -/
theorem step_toDfa (closed : ranked.nfa.StaysInside) (labelled : ranked.nfa.HasWellFormedLabels)
    (hs : ranked.nfa.reachableSets.elements[s]? = some set) (c : Char) :
    ranked.toDfa.step s c = if ranked.nfa.step set c = [] then none
      else some (ranked.nfa.reachableSets.numberOf (ranked.nfa.step set c)) := by
  refine Option.ext fun t => ?_
  rw [(wellFormed_toDfa closed labelled).step_eq_some_iff (getElem?_states hs), leads_stateOf labelled,
    Option.ite_none_left_eq_some, Option.some.injEq]

theorem verdict_toDfa (labelled : ranked.nfa.HasWellFormedLabels)
    (hs : ranked.nfa.reachableSets.elements[s]? = some set) : ranked.toDfa.verdict s = ranked.verdict set := by
  rw [Dfa.verdict_eq (getElem?_states hs), (extends_stateOf labelled _ set).verdict_eq]
  rfl

/-- **The automaton of the sets agrees with the simulation.** -/
theorem agree_toDfa (closed : ranked.nfa.StaysInside) (labelled : ranked.nfa.HasWellFormedLabels) :
    Matcher.Agree ranked ranked.toDfa := by
  refine ⟨fun set s => ranked.nfa.reachableSets.elements[s]? = some set, getElem?_discover_singleton, ?_,
    fun set s hs => (verdict_toDfa labelled hs).symm⟩
  intro set s hs c
  change Option.Rel _ (if (ranked.nfa.step set c).isEmpty then none else some (ranked.nfa.step set c))
    (ranked.toDfa.step s c)
  rw [step_toDfa closed labelled hs]
  by_cases stuck : ranked.nfa.step set c = []
  · rw [if_pos stuck, if_pos (List.isEmpty_iff.mpr stuck)]
    exact .none
  · rw [if_neg stuck, if_neg (List.isEmpty_iff.not.mpr stuck)]
    exact .some (Numbering.getElem?_numberOf _ (Nfa.step_mem_reachableSets closed labelled
      (Numbering.mem_toList_iff _ |>.mpr ⟨s, hs⟩) stuck))

end RankedNfa
end TableParsing
