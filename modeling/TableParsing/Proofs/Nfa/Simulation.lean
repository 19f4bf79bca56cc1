import TableParsing.Nfa.Simulation
import TableParsing.Proofs.Discovery
import TableParsing.Proofs.Nfa.Walk
import TableParsing.Proofs.Sorting

/-! # What a simulation knows

**After a text has been read, the set of a simulation holds the states to which a walk with that text leads
from the start.**  So an automaton accepts the words between its start and its accepting states. -/

namespace TableParsing

/-! ## Ascending lists -/

theorem mem_ascending {x : Nat} {xs : List Nat} : x ∈ ascending xs ↔ x ∈ xs := mem_sorted

theorem pairwise_ascending (xs : List Nat) : (ascending xs).Pairwise (· < ·) := pairwise_lt_sorted xs

namespace Nfa
variable (nfa : Nfa)

/-- The edges that leave a state, as they are seen from there. -/
def exits (s : Nat) : List Exit := (nfa.outgoing s).map fun e => ⟨e.target, e.label⟩

/-- The states to which the edges without a label lead. -/
def skips (s : Nat) : List Nat := ((nfa.outgoing s).filter (·.isEpsilon)).map (·.target)

/-- The automaton starts in a state, and its edges lead to states. -/
structure StaysInside : Prop where
  start_lt : nfa.start < nfa.stateCount
  target_lt : ∀ e ∈ nfa.edges, e.target < nfa.stateCount

/-- Moreover its edges lead from states. -/
structure IsClosed : Prop extends nfa.StaysInside where
  source_lt : ∀ e ∈ nfa.edges, e.source < nfa.stateCount

/-- The words that the automaton accepts. -/
def language : Language Char := {word | nfa.accepts? word = true}

/-- The words behind which the automaton may be in its start state again. -/
def returns : Language Char := {word | nfa.start ∈ nfa.run word}

variable {nfa} {s t : Nat} {seeds : List Nat}

theorem mem_outgoing {e : Edge} (h : e ∈ nfa.outgoing s) : e ∈ nfa.edges ∧ e.source = s := by
  by_cases hs : s < nfa.stateCount
  · rw [nfa.outgoing_eq_filter hs, List.mem_filter, decide_eq_true_iff] at h
    exact h
  · rw [outgoing, nfa.leaving_eq, Array.getD_eq_getD_getElem?,
      Array.getElem?_eq_none (by rw [size_bySource]; omega)] at h
    cases h

theorem mem_edges_of_mem_exits {exit : Exit} (h : exit ∈ nfa.exits s) : ⟨s, exit.target, exit.label⟩ ∈ nfa.edges := by
  obtain ⟨e, he, rfl⟩ := List.mem_map.mp h
  obtain ⟨there, rfl⟩ := mem_outgoing he
  exact there

theorem mem_exits {exit : Exit} (hs : s < nfa.stateCount) :
    exit ∈ nfa.exits s ↔ ⟨s, exit.target, exit.label⟩ ∈ nfa.edges := by
  refine ⟨mem_edges_of_mem_exits, fun he => List.mem_map.mpr ⟨⟨s, exit.target, exit.label⟩, ?_, rfl⟩⟩
  rw [nfa.outgoing_eq_filter hs, List.mem_filter]
  exact ⟨he, decide_eq_true rfl⟩

theorem mem_skips : t ∈ nfa.skips s ↔ ⟨t, none⟩ ∈ nfa.exits s := by
  rw [skips, exits, List.mem_map, List.mem_map]
  refine exists_congr fun e => ?_
  rw [List.mem_filter, Edge.isEpsilon, Option.isNone_iff_eq_none, Exit.mk.injEq, and_assoc]
  exact and_congr_right fun _ => and_comm

theorem mem_move {set : List Nat} {c : Char} :
    t ∈ nfa.move set c ↔ ∃ s ∈ set, ∃ label, ⟨t, some label⟩ ∈ nfa.exits s ∧ label.contains c = true := by
  rw [move, mem_ascending, List.mem_filterMap]
  constructor
  · rintro ⟨⟨source, target, label⟩, he, hread⟩
    obtain ⟨s, hs, he⟩ := List.mem_flatMap.mp he
    cases label with
    | none => simp [Edge.reads] at hread
    | some label =>
      obtain ⟨reads, same⟩ := Option.ite_none_right_eq_some.mp hread
      cases same
      exact ⟨s, hs, label, List.mem_map.mpr ⟨_, he, rfl⟩, reads⟩
  · rintro ⟨s, hs, label, edge, reads⟩
    obtain ⟨⟨source, target, _⟩, he, same⟩ := List.mem_map.mp edge
    cases same
    exact ⟨_, List.mem_flatMap.mpr ⟨s, hs, he⟩, by simp [Edge.reads, reads]⟩

theorem run_append {text : List Char} {c : Char} :
    nfa.run (text ++ [c]) = nfa.closure (nfa.move (nfa.run text) c) := by
  rw [run, List.foldl_append]
  rfl

/-! ## Closures

Where a search for a closure begins with states, and edges lead to states, it finds nothing but states. -/

section Inside
variable (inside : ∀ e ∈ nfa.edges, e.target < nfa.stateCount)
include inside

theorem target_lt_of_mem_exits {exit : Exit} (edge : exit ∈ nfa.exits s) : exit.target < nfa.stateCount :=
  inside _ (mem_edges_of_mem_exits edge)

theorem closed_states : Closed nfa.exits {s | s < nfa.stateCount} :=
  fun _ _ _ edge => target_lt_of_mem_exits inside edge

/-- The search for a closure ends by itself. -/
theorem exhausts_closure (hseeds : ∀ s ∈ seeds, s < nfa.stateCount) :
    Exhausts nfa.skips 0 (.ofList seeds) (discover nfa.skips nfa.stateCount seeds) :=
  exhausts_discover (fun _ _ _ hb => target_lt_of_mem_exits inside (mem_skips.mp hb)) (fun _ => List.mem_range.mpr)
    (Nat.le_of_eq List.length_range) hseeds

/-- A walk that reads nothing leads to states of the closure. -/
theorem mem_closure_of_walk {word : List Char} (hseeds : ∀ s ∈ seeds, s < nfa.stateCount)
    (walk : Walk nfa.exits s word t) (nothing : word = []) (hs : s ∈ nfa.closure seeds) :
    t ∈ nfa.closure seeds := by
  induction walk with
  | stay _ => exact hs
  | skip edge _ ih =>
    -- a search that has found a state goes on along its edges
    refine ih nothing (mem_ascending.mpr ?_)
    exact mem_discover_of_mem_next (P := (· < nfa.stateCount))
      (fun _ _ _ hb => target_lt_of_mem_exits inside (mem_skips.mp hb)) (fun a => List.mem_range.mpr)
      (Nat.le_of_eq List.length_range) hseeds (mem_ascending.mp hs) (mem_skips.mpr edge)
  | read _ _ _ _ => cases nothing

/-- **A closure is what can be reached without reading.** -/
theorem mem_closure (hseeds : ∀ s ∈ seeds, s < nfa.stateCount) :
    t ∈ nfa.closure seeds ↔ ∃ s ∈ seeds, Walk nfa.exits s [] t := by
  constructor
  · intro ht
    refine of_mem_discover (P := fun t => ∃ s ∈ seeds, Walk nfa.exits s [] t) ?_
      (fun s hs => ⟨s, hs, .stay s⟩) (mem_ascending.mp ht)
    rintro a ⟨s, hs, walk⟩ b hb
    exact ⟨s, hs, walk.append (.skip (mem_skips.mp hb) (.stay b))⟩
  · rintro ⟨s, hs, walk⟩
    exact mem_closure_of_walk inside hseeds walk rfl (mem_ascending.mpr (mem_discover_of_mem hs))

theorem lt_of_mem_closure (hseeds : ∀ s ∈ seeds, s < nfa.stateCount) (ht : t ∈ nfa.closure seeds) :
    t < nfa.stateCount := by
  obtain ⟨s, hs, walk⟩ := (mem_closure inside hseeds).mp ht
  exact (closed_states inside).mem (hseeds s hs) walk

theorem lt_of_mem_move {set : List Nat} {c : Char} (ht : t ∈ nfa.move set c) : t < nfa.stateCount := by
  obtain ⟨s, -, label, edge, -⟩ := mem_move.mp ht
  exact target_lt_of_mem_exits inside edge

end Inside

/-! ## Runs -/

namespace StaysInside
variable (h : nfa.StaysInside)
include h

theorem closed : Closed nfa.exits {s | s < nfa.stateCount} := closed_states h.target_lt

theorem lt_of_walk {word : List Char} (walk : Walk nfa.exits nfa.start word t) : t < nfa.stateCount :=
  h.closed.mem h.start_lt walk

theorem exhausts_closure (hseeds : ∀ s ∈ seeds, s < nfa.stateCount) :
    Exhausts nfa.skips 0 (.ofList seeds) (discover nfa.skips nfa.stateCount seeds) :=
  Nfa.exhausts_closure h.target_lt hseeds

/-- **A run follows the walks from the start.** -/
theorem mem_run {text : List Char} : t ∈ nfa.run text ↔ text ∈ between nfa.exits nfa.start t := by
  -- on the text from behind: the last step moves, and then closes what it has moved to
  induction text using List.reverseRecOn generalizing t with
  | nil =>
    have start : ∀ s ∈ [nfa.start], s < nfa.stateCount := fun s hs => List.mem_singleton.mp hs ▸ h.start_lt
    rw [run, List.foldl_nil, begin, mem_closure h.target_lt start]
    simp only [List.mem_singleton, exists_eq_left]
    rfl
  | append_singleton text c ih =>
    rw [run_append, mem_closure h.target_lt fun s hs => lt_of_mem_move h.target_lt hs]
    constructor
    · rintro ⟨s, hs, walk⟩
      obtain ⟨m, hm, label, edge, reads⟩ := mem_move.mp hs
      exact (ih.mp hm).append (.read edge reads walk)
    · intro walk
      obtain ⟨m, s, label, front, edge, reads, back⟩ := walk.split_last
      exact ⟨s, mem_move.mpr ⟨m, ih.mpr front, label, edge, reads⟩, back⟩

end StaysInside

namespace IsClosed
variable (h : nfa.IsClosed)
include h

theorem mem_exits {exit : Exit} : exit ∈ nfa.exits s ↔ ⟨s, exit.target, exit.label⟩ ∈ nfa.edges :=
  ⟨mem_edges_of_mem_exits, fun he => (Nfa.mem_exits (h.source_lt _ he)).mpr he⟩

theorem mem_language {word : List Char} :
    word ∈ nfa.language ↔ ∃ s ∈ nfa.accepts, word ∈ between nfa.exits nfa.start s := by
  have holds : word ∈ nfa.language ↔ ∃ s ∈ nfa.run word, s ∈ nfa.accepts := by
    change nfa.accepts? word = true ↔ _
    rw [accepts?, Bool.not_eq_true', List.isEmpty_eq_false_iff_exists_mem, slots]
    simp only [List.mem_filterMap, slot?]
    -- the slots are the places of the states that accept
    constructor
    · rintro ⟨slot, s, hs, hslot⟩
      exact ⟨s, hs, List.isSome_idxOf?.mp (Option.isSome_of_eq_some hslot)⟩
    · rintro ⟨s, hs, hmem⟩
      obtain ⟨slot, hslot⟩ := Option.isSome_iff_exists.mp (List.isSome_idxOf?.mpr hmem)
      exact ⟨slot, s, hs, hslot⟩
  rw [holds]
  refine exists_congr fun s => ?_
  rw [h.mem_run, and_comm]

/-- The words of an automaton with one accepting state. -/
theorem language_eq_between {s : Nat} (accepts : nfa.accepts = [s]) :
    nfa.language = between nfa.exits nfa.start s := by
  ext word
  rw [h.mem_language, accepts]
  simp

theorem returns_eq_between : nfa.returns = between nfa.exits nfa.start nfa.start := by
  ext word
  exact h.mem_run

end IsClosed
end Nfa
end TableParsing
