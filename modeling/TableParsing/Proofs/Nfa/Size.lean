import Mathlib.Algebra.GroupWithZero.Nat
import TableParsing.Proofs.Nfa.Spanning
import TableParsing.Proofs.Nfa.Thompson

/-! # The shape and the size of automata

The fragments on the stack have the sizes that the operations make of sizes (`Graph.exists_sizes_foldlM`), and a
fragment is finished to an automaton of the states that it spans.  So **every state of an automaton lies on a way from
its start to its one accepting state**, and the sizes say how many states and edges there are
(`Nfa.exists_isThompson`).

Labels play no part in this: a set without characters still labels an edge. -/

namespace TableParsing

open PatternAlgebra

namespace Graph
variable {graph after : Graph} {area : Set Nat} {x : Fragment} {p : Passage} {stack : List Fragment} {ps : List Passage}
  {size : Size} {ms : List Size} {result : Graph × List Fragment} {s : Nat}

/-! ## Runs -/

/-- Whether the fragments of a list have the sizes of a list. -/
def AllMeasure (graph : Graph) (stack : List Fragment) (ms : List Size) : Prop :=
  List.Forall₂ (fun x size => graph.Measures x size []) stack ms

theorem Laid.allMeasure_frame {taken : Set Nat} (laid : graph.Laid taken stack ps) (keeps : graph.Keeps after taken)
    (measures : graph.AllMeasure stack ms) : after.AllMeasure stack ms := by
  induction laid generalizing ms with
  | nil =>
    cases measures
    exact .nil
  | cons holds apart _ ih =>
    cases measures with
    | cons first rest => exact .cons (first.frame holds keeps apart) (ih (keeps.mono Set.subset_union_left) rest)

/-- What is made of measured fragments goes on top of the others. -/
theorem Laid.allMeasure_push {taken : Set Nat} {made : Graph × Fragment} (laid : graph.Laid taken stack ps)
    (makes : graph.Makes area made p) (sub : area ⊆ taken) (measures : graph.AllMeasure stack ms)
    (top : made.1.Measures made.2 size []) :
    (perform?.push stack made).1.AllMeasure (perform?.push stack made).2 (size :: ms) := by
  obtain ⟨after, x⟩ := made
  exact .cons top (laid.allMeasure_frame (makes.keeps.mono sub) measures)

/-- **A step** makes of the sizes what they are to be. -/
theorem exists_sizes_perform? {op : PatternOp} (laid : graph.Laid ∅ stack ps) (measures : graph.AllMeasure stack ms)
    (performed : graph.perform? stack op = some result) :
    ∃ ms', sizes.perform? ms op = some ms' ∧ result.1.AllMeasure result.2 ms' := by
  have covered {s t : Set Nat} : s ∪ t ⊆ ∅ ∪ t ∪ s := by
    rw [Set.empty_union, Set.union_comm]
  cases op with
  | accept set =>
    obtain rfl := Option.some.inj performed
    have pushed := laid.allMeasure_push (makes_accept set) (Set.Subset.refl _) measures (measures_accept set)
    cases ms <;> exact ⟨_, rfl, pushed⟩
  | concat =>
    rcases laid with _ | ⟨hb, _, _ | ⟨ha, apart, rest⟩⟩ <;> cases performed
    obtain _ | ⟨top, _ | ⟨second, others⟩⟩ := measures
    have apart := (apart.mono_left Set.subset_union_right).symm
    exact ⟨_, rfl, rest.allMeasure_push (makes_concat ha hb apart) covered others
      (measures_concat ha hb apart second top)⟩
  | alternate =>
    rcases laid with _ | ⟨hb, _, _ | ⟨ha, apart, rest⟩⟩ <;> cases performed
    obtain _ | ⟨top, _ | ⟨second, others⟩⟩ := measures
    have apart := (apart.mono_left Set.subset_union_right).symm
    exact ⟨_, rfl, rest.allMeasure_push (makes_alternate ha hb apart) covered others
      (measures_alternate ha hb apart second top)⟩
  | star =>
    rcases laid with _ | ⟨hx, _, rest⟩ <;> cases performed
    obtain _ | ⟨top, others⟩ := measures
    exact ⟨_, rfl, rest.allMeasure_push (makes_star hx) Set.subset_union_right others (measures_star top)⟩
  | plus =>
    rcases laid with _ | ⟨hx, _, rest⟩ <;> cases performed
    obtain _ | ⟨top, others⟩ := measures
    exact ⟨_, rfl, rest.allMeasure_push (makes_plus hx) Set.subset_union_right others (measures_plus top)⟩
  | optional =>
    rcases laid with _ | ⟨hx, _, rest⟩ <;> cases performed
    obtain _ | ⟨top, others⟩ := measures
    exact ⟨_, rfl, rest.allMeasure_push (makes_optional hx) Set.subset_union_right others (measures_optional hx top)⟩
  | «repeat» min max =>
    rcases laid with _ | ⟨hx, _, rest⟩ <;> cases performed
    obtain _ | ⟨top, others⟩ := measures
    exact ⟨_, rfl, rest.allMeasure_push (makes_repeat hx min max) Set.subset_union_right others
      (measures_repeat hx top min max)⟩

/-- **A run** of operations makes of sizes what it makes of fragments. -/
theorem exists_sizes_foldlM {ops : List PatternOp} (laid : graph.Laid ∅ stack ps) (measures : graph.AllMeasure stack ms)
    (performed : ops.foldlM (fun (graph, stack) op => graph.perform? stack op) (graph, stack) = some result) :
    ∃ ms', ops.foldlM sizes.perform? ms = some ms' ∧ result.1.AllMeasure result.2 ms' := by
  induction ops generalizing graph stack ps ms with
  | nil =>
    cases performed
    exact ⟨ms, rfl, measures⟩
  | cons op ops ih =>
    rw [List.foldlM_cons] at performed ⊢
    obtain ⟨after, first, rest⟩ := Option.bind_eq_some_iff.mp performed
    obtain ⟨qs, laid'⟩ := exists_laid_of_perform? laid first
    obtain ⟨ms', step, measures'⟩ := exists_sizes_perform? laid measures first
    rw [step]
    exact ih laid' measures' rest

/-! ## Finished automata -/

section Finish
variable (h : graph.Holds x area p) (measures : graph.Measures x size [])
include h measures

/-- The search finds what the fragment spans. -/
theorem exists_spans_reachable : ∃ states : Finset Nat, graph.Encloses states (size.states + 1) size.edges ∧
    graph.Spans x states ∧ ∀ s, s ∈ (graph.reachable x.start).toList ↔ s ∈ states := by
  obtain ⟨states, encloses, spans, -⟩ := measures
  refine ⟨states, encloses, spans, fun s => ⟨fun hs => ?_, fun hs => ?_⟩⟩
  · refine of_mem_discover (P := (· ∈ states)) (fun a ha b hb => ?_)
      (fun a ha => List.mem_singleton.mp ha ▸ spans.start_mem) hs
    obtain ⟨exit, edge, rfl⟩ := List.mem_map.mp hb
    exact encloses.closed a ha exit edge
  · exact (closed_reachable h).mem_of_connects start_mem_reachable (spans.enters s hs)

theorem size_finish : (graph.finish x).stateCount = size.states + 1 ∧ (graph.finish x).edges.length = size.edges := by
  obtain ⟨states, encloses, -, found⟩ := exists_spans_reachable h measures
  have nodup := Numbering.nodup_toList (graph.reachable x.start)
  have same : (graph.reachable x.start).toList.toFinset = states := Finset.ext fun s => by
    rw [List.mem_toFinset, found]
  constructor
  · rw [← encloses.card_eq, ← same, List.toFinset_card_of_nodup nodup]
    rfl
  · rw [finish, List.length_flatMap, ← encloses.edgeCount_eq, ← same, edgeCount, List.sum_toFinset _ nodup]
    simp only [List.length_map]

end Finish
end Graph

namespace Nfa

/-- Whether edges lead from one state to another, whatever their labels. -/
def Leads (nfa : Nfa) : Nat → Nat → Prop :=
  Relation.ReflTransGen fun s t => ∃ e ∈ nfa.edges, e.source = s ∧ e.target = t

/-- **The shape of an automaton that is made of operations.** -/
structure IsThompson (nfa : Nfa) (accept : Nat) : Prop where
  start_eq : nfa.start = 0
  closed : nfa.IsClosed
  accept_lt : accept < nfa.stateCount
  accepts_eq : nfa.accepts = [accept]
  last : ∀ e ∈ nfa.edges, e.source ≠ accept
  enters : ∀ s < nfa.stateCount, nfa.Leads nfa.start s
  leaves : ∀ s < nfa.stateCount, nfa.Leads s accept

end Nfa

namespace Graph
variable {graph : Graph} {area : Set Nat} {x : Fragment} {p : Passage} {size : Size} {s t : Nat}

/-- What is connected in the graph is connected in the automaton. -/
theorem leads_finish (hs : s ∈ (graph.reachable x.start).toList) (h : graph.Holds x area p)
    (path : Connects graph.outgoing s t) :
    (graph.finish x).Leads ((graph.reachable x.start).numberOf s) ((graph.reachable x.start).numberOf t) := by
  induction path with
  | refl => exact .refl
  | tail path step ih =>
    obtain ⟨exit, edge, rfl⟩ := step
    have found := (closed_reachable h).mem_of_connects hs path
    exact ih.tail ⟨_, mem_edges_finish.mpr ⟨_, found, exit, edge, rfl⟩, rfl, rfl⟩

theorem exists_isThompson_finish (h : graph.Holds x area p) (measures : graph.Measures x size []) :
    ∃ accept, (graph.finish x).IsThompson accept := by
  obtain ⟨states, encloses, spans, found⟩ := exists_spans_reachable h measures
  have accept : x.accept ∈ (graph.reachable x.start).toList := (found _).mpr (spans.accept_mem encloses)
  -- a state of the automaton is the number of a state that the fragment spans
  have original : ∀ s < (graph.finish x).stateCount, ∃ t ∈ states, (graph.reachable x.start).numberOf t = s := by
    intro s hs
    have here := Array.getElem?_eq_getElem hs
    exact ⟨_, (found _).mp ((Numbering.mem_toList_iff _).mpr ⟨s, here⟩), Numbering.numberOf_eq _ here⟩
  refine ⟨(graph.reachable x.start).numberOf x.accept, rfl, isClosed_finish h, Numbering.numberOf_lt _ accept,
    ?_, ?_, ?_, ?_⟩
  · rw [finish, (Numbering.number?_eq_some_iff _).mpr (Numbering.getElem?_numberOf _ accept)]
    rfl
  · intro e he same
    obtain ⟨s, hs, exit, edge, rfl⟩ := mem_edges_finish.mp he
    obtain rfl := Numbering.numberOf_inj _ hs same
    rw [h.last] at edge
    cases edge
  · intro s hs
    obtain ⟨t, ht, rfl⟩ := original s hs
    have path := leads_finish start_mem_reachable h (spans.enters t ht)
    rwa [numberOf_start] at path
  · intro s hs
    obtain ⟨t, ht, rfl⟩ := original s hs
    exact leads_finish ((found t).mpr ht) h (spans.leaves t ht)

end Graph

/-! ## Counting operations -/

namespace PatternAlgebra
variable {ops ops' : List PatternOp} {op : PatternOp} {ms ms' ms'' : List Size}

/-- What operations without counted repetition add to the sizes on the stack: two states for each of them, but one for a
repetition, none for a way past a fragment, and one less for a joint. -/
structure Counts (ops : List PatternOp) (ms ms' : List Size) : Prop where
  states : (ms'.map (·.states + 1)).sum + ops.count .concat = (ms.map (·.states + 1)).sum +
    2 * ops.countP (· matches .accept _) + 2 * ops.count .alternate + 2 * ops.count .star + ops.count .plus
  edges : (ms'.map (·.edges)).sum = (ms.map (·.edges)).sum + ops.countP (· matches .accept _) +
    4 * ops.count .alternate + 3 * ops.count .star + 2 * ops.count .plus + ops.count .optional

/-- **A step.** -/
theorem counts_perform? (free : ∀ min max, op ≠ .repeat min max) (step : sizes.perform? ms op = some ms') :
    Counts [op] ms ms' := by
  cases op with
  | accept set =>
    cases step
    constructor <;> simp [sizes] <;> omega
  | concat | alternate =>
    rcases ms with _ | ⟨b, _ | ⟨a, ms⟩⟩ <;> cases step
    constructor <;> simp [sizes] <;> omega
  | star | plus | optional =>
    rcases ms with _ | ⟨x, ms⟩ <;> cases step
    constructor <;> simp [sizes] <;> omega
  | «repeat» min max => exact absurd rfl (free min max)

theorem Counts.append (h : Counts ops ms ms') (h' : Counts ops' ms' ms'') : Counts (ops ++ ops') ms ms'' := by
  obtain ⟨states, edges⟩ := h
  obtain ⟨states', edges'⟩ := h'
  constructor <;> simp only [List.count_append, List.countP_append] <;> omega

/-- **A run.** -/
theorem counts_foldlM (free : ∀ min max, .repeat min max ∉ ops) (run : ops.foldlM sizes.perform? ms = some ms') :
    Counts ops ms ms' := by
  induction ops generalizing ms with
  | nil =>
    cases run
    exact ⟨rfl, rfl⟩
  | cons op ops ih =>
    rw [List.foldlM_cons] at run
    obtain ⟨next, step, rest⟩ := Option.bind_eq_some_iff.mp run
    have first := counts_perform? (fun min max same => free min max (same ▸ List.mem_cons_self)) step
    exact first.append (ih (fun min max hm => free min max (List.mem_cons_of_mem _ hm)) rest)

end PatternAlgebra

/-! ## Automata of operations -/

namespace Nfa
variable {ops : List PatternOp} {nfa : Nfa}

/-- An automaton is a finished fragment of the size that the operations make of sizes. -/
theorem exists_fragment (h : ofOperations? ops = some nfa) : ∃ (graph : Graph) (x : Fragment) (area : Set Nat)
    (p : Passage) (size : Size), nfa = graph.finish x ∧ graph.Holds x area p ∧ graph.Measures x size [] ∧
      sizes.eval? ops = some size := by
  obtain ⟨⟨graph, stack⟩, run, h⟩ := Option.bind_eq_some_iff.mp h
  have none : Graph.empty.Laid ∅ [] [] := .nil
  have rel := Graph.rel_foldlM none ops
  rw [run] at rel
  generalize ops.foldlM passages.perform? [] = ps at rel
  obtain ⟨ms, sized, measures⟩ := Graph.exists_sizes_foldlM none .nil run
  cases rel with
  | some laid =>
    rcases laid with _ | ⟨holds, _, _ | _⟩
    · cases h
    · cases h
      obtain _ | ⟨top, _ | _⟩ := measures
      exact ⟨graph, _, _, _, _, rfl, holds, top, sizes.eval?_eq_some_iff.mpr sized⟩
    · cases h

/-- **The shape and the size of an automaton that is made of operations.** -/
theorem exists_isThompson (h : ofOperations? ops = some nfa) : (∃ accept, nfa.IsThompson accept) ∧
    ((∀ min max, .repeat min max ∉ ops) →
      nfa.stateCount + ops.count .concat = 2 * ops.countP (· matches .accept _) + 2 * ops.count .alternate +
        2 * ops.count .star + ops.count .plus ∧
      nfa.edges.length = ops.countP (· matches .accept _) + 4 * ops.count .alternate + 3 * ops.count .star +
        2 * ops.count .plus + ops.count .optional) := by
  obtain ⟨graph, x, area, p, size, rfl, holds, measures, evaluated⟩ := exists_fragment h
  obtain ⟨states, edges⟩ := Graph.size_finish holds measures
  refine ⟨Graph.exists_isThompson_finish holds measures, fun free => ?_⟩
  obtain ⟨made, drawn⟩ := counts_foldlM free (sizes.eval?_eq_some_iff.mp evaluated)
  simp only [List.map_cons, List.map_nil, List.sum_cons, List.sum_nil, Nat.add_zero, Nat.zero_add] at made drawn
  rw [states, edges]
  exact ⟨made, drawn⟩

/-- The operations of `(ab|c)*` and a character that nothing is read as. -/
def deadEnd : List PatternOp := [.accept (.single 'a'), .accept (.single 'b'), .concat, .accept (.single 'c'),
  .alternate, .star, .accept ⟨[]⟩, .concat]

/-- Every state leads to the accepting one, though no word does. -/
theorem exists_isThompson_deadEnd : ∃ nfa, ofOperations? deadEnd = some nfa ∧ (∃ accept, nfa.IsThompson accept) ∧
    nfa.stateCount = 10 ∧ nfa.edges.length = 11 := by
  refine ⟨_, rfl, ?_⟩
  obtain ⟨shape, counts⟩ := exists_isThompson (show ofOperations? deadEnd = some _ from rfl)
  obtain ⟨states, edges⟩ := counts (by simp [deadEnd])
  exact ⟨shape, Nat.add_right_cancel (m := 2) states, edges⟩

end Nfa
end TableParsing
