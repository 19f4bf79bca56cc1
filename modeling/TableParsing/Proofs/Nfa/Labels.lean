import TableParsing.Proofs.Nfa.Renumbering
import TableParsing.Proofs.Pattern.Labels

/-! # Labels of automata

An operation gives an edge no label but the set that it accepts, or the label of an edge that it bends or copies.  **So
the labels of an automaton are the sets of its pattern.** -/

namespace TableParsing
namespace Graph

/-- Whether all labels are sets that an edge may have. -/
def IsLabelled (graph : Graph) : Prop :=
  ∀ s, ∀ exit ∈ graph.outgoing s, ∀ label, exit.label = some label → label.IsLabel

variable {graph : Graph} {x : Fragment}

theorem isLabelled_empty : empty.IsLabelled := nofun

/-- Edges that are made have the new label, if they have not been there before. -/
theorem of_mem_outgoing_addEdge {source target s : Nat} {label : Option CharSet} {exit : Exit}
    (h : exit ∈ (graph.addEdge source target label).outgoing s) : exit ∈ graph.outgoing s ∨ exit = ⟨target, label⟩ := by
  by_cases bound : source < graph.stateCount
  · exact ((graph.mem_outgoing_addEdge bound s exit).mp h).imp_right And.right
  · by_cases hs : s = source
    · -- a state that does not exist gets no edge
      rw [outgoing_of_le _ (by rw [stateCount_addEdge]; omega)] at h
      cases h
    · exact .inl (graph.outgoing_addEdge_of_ne hs ▸ h)

namespace IsLabelled
variable (h : graph.IsLabelled)
include h

theorem addState : graph.addState.IsLabelled := by
  intro s
  rw [outgoing_addState]
  exact h s

theorem addEdge {source target : Nat} {label : Option CharSet} (new : ∀ set, label = some set → set.IsLabel) :
    (graph.addEdge source target label).IsLabelled := by
  intro s exit edge set hset
  rcases of_mem_outgoing_addEdge edge with edge | rfl
  · exact h s exit edge set hset
  · exact new set hset

theorem addEpsilon (source target : Nat) : (graph.addEpsilon source target).IsLabelled := h.addEdge nofun

theorem accept {set : CharSet} (hset : set.IsLabel) : (graph.accept set).1.IsLabelled :=
  h.addState.addState.addEdge fun _ same => Option.some.inj same ▸ hset

theorem concat (a b : Fragment) : (graph.concat a b).1.IsLabelled := by
  intro s exit edge
  rw [outgoing_concat] at edge
  obtain ⟨exit', edge', rfl⟩ := List.mem_map.mp edge
  exact h s exit' edge'

theorem alternate (a b : Fragment) : (graph.alternate a b).1.IsLabelled :=
  (((h.addState.addState.addEpsilon _ _).addEpsilon _ _).addEpsilon _ _).addEpsilon _ _

theorem star (x : Fragment) : (graph.star x).1.IsLabelled :=
  ((h.addState.addState.addEpsilon _ _).addEpsilon _ _).addEpsilon _ _

theorem plus (x : Fragment) : (graph.plus x).1.IsLabelled := (h.addState.addEpsilon _ _).addEpsilon _ _

theorem copy (x : Fragment) : (graph.copy x).1.IsLabelled := by
  intro s exit edge
  rw [outgoing_copy] at edge
  split at edge
  · exact h s exit edge
  · cases hs : (graph.reachable x.start).elements[s - graph.stateCount]? with
    | none =>
      rw [hs] at edge
      cases edge
    | some original =>
      rw [hs] at edge
      obtain ⟨exit', edge', rfl⟩ := List.mem_map.mp edge
      exact h original exit' edge'

theorem copies (x : Fragment) (n : Nat) : (graph.copies x n).1.IsLabelled := by
  induction n generalizing graph with
  | zero => exact h
  | succ n ih => exact ih (h.copy x)

theorem chain (x : Fragment) (rest : List Fragment) : (graph.chain x rest).1.IsLabelled := by
  induction rest generalizing graph x with
  | nil => exact h
  | cons next rest ih => exact ih (h.concat x next) _

theorem repeatBounded (x : Fragment) (min max : Nat) : (graph.repeatBounded x min max).1.IsLabelled :=
  List.foldlRecOn _ _ ((h.copies x _).chain x _) fun _ h _ _ => h.addEpsilon _ _

theorem «repeat» (x : Fragment) (min : Nat) (max : Option Nat) : (graph.repeat x min max).1.IsLabelled := by
  cases max with
  | some max => exact h.repeatBounded x min max
  | none =>
    cases min with
    | zero => exact h.star x
    | succ min => exact (((h.copy x).star _).repeatBounded x _ _).concat _ _

/-- **A step.** -/
theorem perform? {stack : List Fragment} {op : PatternOp} {result : Graph × List Fragment}
    (labels : ∀ set, op = .accept set → set.IsLabel) (performed : graph.perform? stack op = some result) :
    result.1.IsLabelled := by
  rw [Graph.perform?.eq_def] at performed
  split at performed
  · cases performed
    exact h.accept (labels _ rfl)
  · cases performed
    exact h.concat _ _
  · cases performed
    exact h.alternate _ _
  · cases performed
    exact h.star _
  · cases performed
    exact h.plus _
  · cases performed
    exact h.addEpsilon _ _
  · cases performed
    exact h.repeat _ _ _
  · cases performed

/-- **A run.** -/
theorem foldlM {ops : List PatternOp} {stack : List Fragment} {result : Graph × List Fragment}
    (labels : ∀ set, .accept set ∈ ops → set.IsLabel)
    (performed : ops.foldlM (fun (graph, stack) op => graph.perform? stack op) (graph, stack) = some result) :
    result.1.IsLabelled := by
  induction ops generalizing graph stack with
  | nil =>
    cases performed
    exact h
  | cons op ops ih =>
    rw [List.foldlM_cons] at performed
    obtain ⟨after, first, rest⟩ := Option.bind_eq_some_iff.mp performed
    refine ih (h.perform? (fun set same => labels set ?_) first) (fun set hset => labels set ?_) rest
    · exact same ▸ List.mem_cons_self
    · exact List.mem_cons_of_mem _ hset

end IsLabelled
end Graph

namespace Nfa

/-- Whether all labels are sets that an edge may have. -/
def IsLabelled (nfa : Nfa) : Prop := ∀ e ∈ nfa.edges, ∀ label, e.label = some label → label.IsLabel

/-- Whether the ranges of all labels ascend.  There need not be a character in a label. -/
def HasWellFormedLabels (nfa : Nfa) : Prop := ∀ e ∈ nfa.edges, ∀ label, e.label = some label → label.WellFormed

variable {nfa : Nfa} {graph : Graph} {x : Fragment}

theorem IsLabelled.hasWellFormedLabels (h : nfa.IsLabelled) : nfa.HasWellFormedLabels :=
  fun e he label hl => (h e he label hl).wellFormed

theorem isLabelled_finish (h : graph.IsLabelled) : (graph.finish x).IsLabelled := by
  intro e he
  obtain ⟨s, -, exit, edge, rfl⟩ := Graph.mem_edges_finish.mp he
  exact h s exit edge

end Nfa
end TableParsing
