import TableParsing.Proofs.Nfa.Operations
import TableParsing.Proofs.Nfa.Simulation

/-! # Copies and finished automata

A copy of a fragment, and the automaton made of one, consist of the states that a search from the start of
the fragment finds, numbered as the search numbers them.  **No edge leads out of these states**, so nothing
is lost between them. -/

namespace TableParsing
namespace Graph
variable {graph : Graph} {area : Set Nat} {x : Fragment} {p : Passage}

/-! ## The states of a fragment -/

/-- **The states found have all their edges among them.** -/
theorem closed_reachable (h : graph.Holds x area p) :
    Closed graph.outgoing {s | s ∈ (graph.reachable x.start).toList} := by
  intro s hs exit edge
  refine mem_discover_of_mem_next (P := (· ∈ area)) (fun a ha b hb => ?_)
    (fun a ha => List.mem_range.mpr (h.within a ha)) (Nat.le_of_eq List.length_range) (fun a ha => ?_) hs
    (List.mem_map_of_mem edge)
  · obtain ⟨exit, edge, rfl⟩ := List.mem_map.mp hb
    exact h.closed a ha exit edge
  · rw [List.mem_singleton.mp ha]
    exact h.start_mem

theorem start_mem_reachable : x.start ∈ (graph.reachable x.start).toList :=
  (Numbering.mem_toList_iff _).mpr ⟨0, getElem?_discover_singleton⟩

theorem numberOf_start : (graph.reachable x.start).numberOf x.start = 0 :=
  Numbering.numberOf_eq _ getElem?_discover_singleton

/-! ## Copies -/

section Copy

/-- The state of the copy that stands for a state. -/
def copied (graph : Graph) (x : Fragment) (s : Nat) : Nat :=
  graph.stateCount + (graph.reachable x.start).numberOf s

theorem injOn_copied :
    Set.InjOn (graph.copied x) {s | s ∈ (graph.reachable x.start).toList ∨ s = x.accept} := by
  intro s hs t ht same
  have same := Nat.add_left_cancel same
  rcases hs with hs | rfl
  · exact Numbering.numberOf_inj _ hs same
  · rcases ht with ht | rfl
    · exact (Numbering.numberOf_inj _ ht same.symm).symm
    · rfl

theorem outgoing_copy (s : Nat) : (graph.copy x).1.outgoing s =
    if s < graph.stateCount then graph.outgoing s
    else ((graph.reachable x.start).elements[s - graph.stateCount]?.map fun s =>
      (graph.outgoing s).map (·.retarget (graph.copied x))).getD [] := by
  let appended : Graph := ⟨graph.exits ++ (graph.reachable x.start).elements.map fun s =>
    (graph.outgoing s).map (·.retarget (graph.copied x))⟩
  -- the state that may be added for the end has no edges
  have same : (graph.copy x).1.outgoing s = appended.outgoing s := by
    rw [copy]
    split
    · rfl
    · exact congrFun appended.outgoing_addState s
  rw [same, outgoing, Array.getD_eq_getD_getElem?, Array.getElem?_append, ← stateCount]
  split
  · rw [outgoing, Array.getD_eq_getD_getElem?]
  · rw [Array.getElem?_map]

theorem outgoing_copy_of_mem {s : Nat} (hs : s ∈ (graph.reachable x.start).toList) :
    (graph.copy x).1.outgoing (graph.copied x s) = (graph.outgoing s).map (·.retarget (graph.copied x)) := by
  rw [outgoing_copy, copied, if_neg (Nat.not_lt.mpr (Nat.le_add_right _ _)), Nat.add_sub_cancel_left,
    Numbering.getElem?_numberOf _ hs]
  rfl

theorem stateCount_copy : (graph.copy x).1.stateCount = graph.stateCount + (graph.reachable x.start).size +
    if ((graph.reachable x.start).number? x.accept).isSome then 0 else 1 := by
  rw [copy]
  split
  · simp [stateCount, Numbering.size]
  · rw [stateCount_addState]
    simp [stateCount, Numbering.size]

theorem keeps_copy : graph.Keeps (graph.copy x).1 ∅ := by
  refine ⟨by rw [stateCount_copy]; omega, ?_⟩
  intro other within _ _ s hs
  rw [outgoing_copy, if_pos (within s hs)]

theorem lt_stateCount_copied {s : Nat} (hs : s ∈ (graph.reachable x.start).toList ∨ s = x.accept) :
    graph.copied x s < (graph.copy x).1.stateCount := by
  rw [stateCount_copy, copied]
  by_cases mem : s ∈ (graph.reachable x.start).toList
  · have := Numbering.numberOf_lt _ mem
    omega
  · obtain rfl := hs.resolve_left mem
    rw [Numbering.numberOf_of_not_mem _ mem, if_neg fun h => mem ((Numbering.isSome_number?_iff _).mp h)]
    exact Nat.lt_succ_self _

variable (h : graph.Holds x area p)
include h

/-- The copies of the states, and of the end, have the edges of what they stand for. -/
theorem mem_outgoing_copied {s : Nat} (hs : s ∈ (graph.reachable x.start).toList ∨ s = x.accept)
    (exit' : Exit) : exit' ∈ (graph.copy x).1.outgoing (graph.copied x s) ↔
      ∃ exit ∈ graph.outgoing s, exit' = exit.retarget (graph.copied x) := by
  by_cases mem : s ∈ (graph.reachable x.start).toList
  · rw [outgoing_copy_of_mem mem, List.mem_map]
    exact exists_congr fun exit => and_congr_right fun _ => eq_comm
  · obtain rfl := hs.resolve_left mem
    rw [outgoing_copy, copied, if_neg (Nat.not_lt.mpr (Nat.le_add_right _ _)), Nat.add_sub_cancel_left,
      Numbering.numberOf_of_not_mem _ mem, Array.getElem?_eq_none (Nat.le_refl _), h.last]
    simp

/-- **A copy is made of new states and has the passage of the original.** -/
theorem makes_copy : graph.Makes ∅ (graph.copy x) p := by
  let states : Set Nat := {s | s ∈ (graph.reachable x.start).toList ∨ s = x.accept}
  have start : x.start ∈ states := .inl start_mem_reachable
  have accept : x.accept ∈ states := .inr rfl
  -- the end need not be found, and has no edges then
  have closed : Closed graph.outgoing states := by
    rintro s (hs | rfl) exit edge
    · exact .inl (closed_reachable h s hs exit edge)
    · rw [h.last] at edge
      cases edge
  have first : graph.copied x x.start = graph.stateCount := by rw [copied, numberOf_start, Nat.add_zero]
  have same : ∀ t ∈ states, between (graph.copy x).1.outgoing graph.stateCount (graph.copied x t) =
      between graph.outgoing x.start t := by
    intro t ht
    rw [← first]
    exact between_map closed injOn_copied (fun s hs => mem_outgoing_copied h hs) start ht
  refine ⟨keeps_copy, graph.copied x '' states, ?_, ?_⟩
  · rintro _ ⟨s, _, rfl⟩
    exact .inr (Nat.le_add_right _ _)
  · refine {
      within := ?_
      closed := ?_
      start_mem := ⟨x.start, start, first⟩
      accept_mem := ⟨x.accept, accept, rfl⟩
      start_ne := ?_
      last := ?_
      through := (same _ accept).trans h.through
      back := ?_ }
    · rintro _ ⟨s, hs, rfl⟩
      exact lt_stateCount_copied hs
    · rintro _ ⟨s, hs, rfl⟩ exit' edge'
      obtain ⟨exit, edge, rfl⟩ := (mem_outgoing_copied h hs exit').mp edge'
      exact ⟨exit.target, closed s hs exit edge, rfl⟩
    · intro equal
      have number : (graph.reachable x.start).numberOf x.start = (graph.reachable x.start).numberOf x.accept :=
        Nat.add_left_cancel (first.trans equal)
      exact h.start_ne (Numbering.numberOf_inj _ start_mem_reachable number)
    · refine List.eq_nil_iff_forall_not_mem.mpr fun exit' edge' => ?_
      obtain ⟨exit, edge, _⟩ := (mem_outgoing_copied h accept exit').mp edge'
      rw [h.last] at edge
      cases edge
    · refine Eq.trans ?_ ((same _ start).trans h.back)
      rw [first]
      rfl

end Copy

/-! ## The finished automaton -/

section Finish

theorem mem_edges_finish {e : Nfa.Edge} : e ∈ (graph.finish x).edges ↔
    ∃ s ∈ (graph.reachable x.start).toList, ∃ exit ∈ graph.outgoing s,
      e = ⟨(graph.reachable x.start).numberOf s, (graph.reachable x.start).numberOf exit.target, exit.label⟩ := by
  rw [finish, List.mem_flatMap]
  refine exists_congr fun s => and_congr_right fun _ => ?_
  rw [List.mem_map]
  exact exists_congr fun exit => and_congr_right fun _ => eq_comm

theorem mem_exits_finish {s : Nat} (hs : s ∈ (graph.reachable x.start).toList) (exit' : Exit) :
    exit' ∈ (graph.finish x).exits ((graph.reachable x.start).numberOf s) ↔
      ∃ exit ∈ graph.outgoing s, exit' = exit.retarget (graph.reachable x.start).numberOf := by
  have bound : (graph.reachable x.start).numberOf s < (graph.finish x).stateCount := Numbering.numberOf_lt _ hs
  rw [Nfa.exits, List.mem_map, Nfa.outgoing_eq_filter _ bound]
  constructor
  · rintro ⟨e, he, rfl⟩
    rw [List.mem_filter, mem_edges_finish, decide_eq_true_iff] at he
    obtain ⟨⟨a, ha, exit, edge, rfl⟩, same⟩ := he
    obtain rfl := Numbering.numberOf_inj _ ha same
    exact ⟨exit, edge, rfl⟩
  · rintro ⟨exit, edge, rfl⟩
    refine ⟨⟨_, _, _⟩, List.mem_filter.mpr ⟨mem_edges_finish.mpr ⟨s, hs, exit, edge, rfl⟩, ?_⟩, rfl⟩
    exact decide_eq_true rfl

variable (h : graph.Holds x area p)
include h

theorem isClosed_finish : (graph.finish x).IsClosed := by
  refine ⟨⟨?_, ?_⟩, ?_⟩
  · have := Numbering.numberOf_lt _ (graph.start_mem_reachable (x := x))
    rwa [numberOf_start] at this
  · intro e he
    obtain ⟨s, hs, exit, edge, rfl⟩ := mem_edges_finish.mp he
    exact Numbering.numberOf_lt _ (closed_reachable h s hs exit edge)
  · intro e he
    obtain ⟨s, hs, exit, edge, rfl⟩ := mem_edges_finish.mp he
    exact Numbering.numberOf_lt _ hs

theorem between_finish {t : Nat} (ht : t ∈ (graph.reachable x.start).toList) :
    between (graph.finish x).exits (graph.finish x).start ((graph.reachable x.start).numberOf t) =
      between graph.outgoing x.start t := by
  have start : (graph.finish x).start = (graph.reachable x.start).numberOf x.start := numberOf_start.symm
  rw [start]
  exact between_map (closed_reachable h) (fun s hs t _ => Numbering.numberOf_inj _ hs)
    (fun s hs => mem_exits_finish hs) start_mem_reachable ht

/-- **The finished automaton accepts the words that lead through the fragment.** -/
theorem language_finish : (graph.finish x).language = p.through := by
  rw [← h.through]
  by_cases mem : x.accept ∈ (graph.reachable x.start).toList
  · have accepts : (graph.finish x).accepts = [(graph.reachable x.start).numberOf x.accept] := by
      rw [finish, (Numbering.number?_eq_some_iff _).mpr (Numbering.getElem?_numberOf _ mem)]
      rfl
    rw [(isClosed_finish h).language_eq_between accepts, between_finish h mem]
  -- an end that is not found is not led to, and nothing is accepted
  · have accepts : (graph.finish x).accepts = [] := by
      rw [finish, (Numbering.number?_eq_none_iff _).mpr mem]
      rfl
    rw [(closed_reachable h).between_eq_zero start_mem_reachable mem]
    refine bot_unique fun word hword => ?_
    obtain ⟨s, hs, _⟩ := (isClosed_finish h).mem_language.mp hword
    rw [accepts] at hs
    cases hs

/-- It is in its start state again behind the words that lead back to the start of the fragment. -/
theorem returns_finish : (graph.finish x).returns = p.back := by
  have back := between_finish h start_mem_reachable
  rw [numberOf_start] at back
  rw [(isClosed_finish h).returns_eq_between, ← h.back]
  exact back

end Finish
end Graph
end TableParsing
