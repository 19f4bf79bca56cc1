import TableParsing.Proofs.Nfa.Merge
import TableParsing.Proofs.Nfa.Size

/-! # Closures and steps

Edges without labels lead silently from state to state, in circles too.  **The closure of some states is the ascending
list of those to which they lead silently**, so a closure has no other closure than itself, and lists of states may be
closed before or after they are put together.  A step goes along an edge whose label has the character, and silently on
from there.

Nothing is asked of an automaton but that its edges lead to states, which holds of all that are made of operations or
merged of such (`IsMade.isClosed`). -/

namespace TableParsing
namespace Nfa

/-- Whether edges without labels lead from one state to another. -/
def LeadsSilently (nfa : Nfa) : Nat → Nat → Prop :=
  Relation.ReflTransGen fun s t => ⟨s, t, none⟩ ∈ nfa.edges

/-- The automata that are made of operations, and those that are merged of such. -/
inductive IsMade : Nfa → Prop
  | ofOperations {ops : List PatternOp} {nfa : Nfa} (h : ofOperations? ops = some nfa) : IsMade nfa
  | merge {parts : List Nfa} (h : ∀ part ∈ parts, IsMade part) : IsMade (merge parts)

variable {nfa : Nfa} {s t : Nat} {seeds seeds' set : List Nat} {c : Char}

/-! ## Edges that lead to states -/

theorem isClosed_merge {parts : List Nfa} (h : ∀ part ∈ parts, part.IsClosed) : (merge parts).IsClosed := by
  induction parts using List.reverseRecOn with
  | nil => exact isMerged_initial.closed
  | append_singleton parts part ih =>
    have others := ih fun part hpart => h part (List.mem_append_left _ hpart)
    rw [merge, List.foldl_append]
    exact others.join (h part (List.mem_append_right _ (List.mem_singleton.mpr rfl)))

/-- **An automaton that is made has no edges but those between its states.** -/
theorem IsMade.isClosed (h : nfa.IsMade) : nfa.IsClosed := by
  induction h with
  | ofOperations h =>
    obtain ⟨graph, x, area, p, size, rfl, holds, -⟩ := exists_fragment h
    exact Graph.isClosed_finish holds
  | merge _ ih => exact isClosed_merge ih

/-! ## What leads silently to a state -/

theorem closure?_eq_some_iff :
    nfa.closure? seeds = some set ↔ (∀ s ∈ seeds, s < nfa.stateCount) ∧ nfa.closure seeds = set := by
  rw [closure?, Option.ite_none_right_eq_some, List.all_eq_true, Option.some.injEq]
  simp only [decide_eq_true_eq]

theorem pairwise_closure (nfa : Nfa) (seeds : List Nat) : (nfa.closure seeds).Pairwise (· < ·) := pairwise_ascending _

/-- A walk that reads nothing goes along edges without labels. -/
theorem leadsSilently_of_walk {word : List Char} (walk : Walk nfa.exits s word t) (nothing : word = []) :
    nfa.LeadsSilently s t := by
  induction walk with
  | stay _ => exact .refl
  | skip edge _ ih => exact .head (mem_edges_of_mem_exits edge) (ih nothing)
  | read _ _ _ _ => cases nothing

section Inside
variable (inside : ∀ e ∈ nfa.edges, e.target < nfa.stateCount)
include inside

theorem walk_of_leadsSilently (hs : s < nfa.stateCount) (h : nfa.LeadsSilently s t) : Walk nfa.exits s [] t := by
  induction h with
  | refl => exact .stay s
  | tail _ edge walk =>
    have there := (closed_states inside).mem hs walk
    exact walk.append (.skip ((mem_exits there).mpr edge) (.stay _))

/-- **A closure has the states to which its seeds lead silently.** -/
theorem mem_closure_iff (hseeds : ∀ s ∈ seeds, s < nfa.stateCount) :
    t ∈ nfa.closure seeds ↔ ∃ s ∈ seeds, nfa.LeadsSilently s t := by
  rw [mem_closure inside hseeds]
  refine exists_congr fun s => and_congr_right fun hs => ?_
  exact ⟨fun walk => leadsSilently_of_walk walk rfl, walk_of_leadsSilently inside (hseeds s hs)⟩

theorem closure_closure (hseeds : ∀ s ∈ seeds, s < nfa.stateCount) :
    nfa.closure (nfa.closure seeds) = nfa.closure seeds := by
  refine (pairwise_closure _ _).eq_of_mem_iff (pairwise_closure _ _) fun t => ?_
  rw [mem_closure_iff inside fun _ => lt_of_mem_closure inside hseeds]
  constructor
  · rintro ⟨m, hm, onward⟩
    obtain ⟨s, hs, leads⟩ := (mem_closure_iff inside hseeds).mp hm
    exact (mem_closure_iff inside hseeds).mpr ⟨s, hs, leads.trans onward⟩
  · exact fun ht => ⟨t, ht, .refl⟩

theorem closure_mono (hseeds' : ∀ s ∈ seeds', s < nfa.stateCount) (h : seeds ⊆ seeds') :
    nfa.closure seeds ⊆ nfa.closure seeds' := by
  intro t ht
  obtain ⟨s, hs, leads⟩ := (mem_closure_iff inside fun s hs => hseeds' s (h hs)).mp ht
  exact (mem_closure_iff inside hseeds').mpr ⟨s, h hs, leads⟩

/-- Lists may be closed before or after they are put together. -/
theorem closure_append (hseeds : ∀ s ∈ seeds, s < nfa.stateCount) (hseeds' : ∀ s ∈ seeds', s < nfa.stateCount) :
    nfa.closure (seeds ++ seeds') = ascending (nfa.closure seeds ++ nfa.closure seeds') := by
  refine (pairwise_closure _ _).eq_of_mem_iff (pairwise_ascending _) fun t => ?_
  rw [mem_ascending, List.mem_append, mem_closure_iff inside (List.forall_mem_append.mpr ⟨hseeds, hseeds'⟩),
    mem_closure_iff inside hseeds, mem_closure_iff inside hseeds']
  simp only [List.mem_append, or_and_right, exists_or]

/-- **A step goes along an edge that reads the character, and silently on.** -/
theorem mem_step_iff (hset : ∀ s ∈ set, s < nfa.stateCount) : t ∈ nfa.step set c ↔
    ∃ s ∈ set, ∃ m label, ⟨s, m, some label⟩ ∈ nfa.edges ∧ label.contains c = true ∧ nfa.LeadsSilently m t := by
  rw [step, mem_closure_iff inside fun _ => lt_of_mem_move inside]
  constructor
  · rintro ⟨m, hm, onward⟩
    obtain ⟨s, hs, label, edge, reads⟩ := mem_move.mp hm
    exact ⟨s, hs, m, label, mem_edges_of_mem_exits edge, reads, onward⟩
  · rintro ⟨s, hs, m, label, edge, reads, onward⟩
    exact ⟨m, mem_move.mpr ⟨s, hs, label, (mem_exits (hset s hs)).mpr edge, reads⟩, onward⟩

end Inside

/-! ## Exactness -/

/-- What the sets of a simulation are, said of the edges alone.  A list has a closure if its members are states. -/
structure SimulatesExactly (nfa : Nfa) : Prop where
  /-- The search from any list of states ends by itself, and the closure is what has been found then. -/
  ends : ∀ seeds, (∀ s ∈ seeds, s < nfa.stateCount) →
    ∃ found, Exhausts nfa.skips 0 (.ofList seeds) found ∧ nfa.closure? seeds = some (ascending found.toList)
  /-- A closure is an ascending list without repetition. -/
  pairwise : ∀ seeds set, nfa.closure? seeds = some set → set.Pairwise (· < ·)
  mem_iff : ∀ seeds set, nfa.closure? seeds = some set → ∀ t, t ∈ set ↔ ∃ s ∈ seeds, nfa.LeadsSilently s t
  idempotent : ∀ seeds set, nfa.closure? seeds = some set → nfa.closure? set = some set
  monotone : ∀ seeds seeds' set set', nfa.closure? seeds = some set → nfa.closure? seeds' = some set' →
    seeds ⊆ seeds' → set ⊆ set'
  append : ∀ seeds seeds' set set', nfa.closure? seeds = some set → nfa.closure? seeds' = some set' →
    nfa.closure? (seeds ++ seeds') = some (ascending (set ++ set'))
  /-- What is read leads to states, whose closure is the result of the step. -/
  steps : ∀ set c, nfa.closure? (nfa.move set c) = some (nfa.step set c)
  pairwise_step : ∀ set c, (nfa.step set c).Pairwise (· < ·)
  mem_step_iff : ∀ set c, (∀ s ∈ set, s < nfa.stateCount) → ∀ t, t ∈ nfa.step set c ↔
    ∃ s ∈ set, ∃ m label, ⟨s, m, some label⟩ ∈ nfa.edges ∧ label.contains c = true ∧ nfa.LeadsSilently m t

/-- **Closures and steps are exact** in every automaton that is made, and in any other whose edges lead to states, also
where edges without labels lead in circles. -/
theorem simulatesExactly : (∀ nfa : Nfa, nfa.IsMade → nfa.SimulatesExactly) ∧
    ∀ nfa : Nfa, (∀ e ∈ nfa.edges, e.target < nfa.stateCount) → nfa.SimulatesExactly := by
  have general : ∀ nfa : Nfa, (∀ e ∈ nfa.edges, e.target < nfa.stateCount) → nfa.SimulatesExactly := by
    intro nfa inside
    constructor
    case ends => exact fun seeds hseeds => ⟨_, exhausts_closure inside hseeds, closure?_eq_some_iff.mpr ⟨hseeds, rfl⟩⟩
    case pairwise =>
      rintro seeds _ h
      obtain ⟨-, rfl⟩ := closure?_eq_some_iff.mp h
      exact pairwise_closure nfa seeds
    case mem_iff =>
      rintro seeds _ h t
      obtain ⟨hseeds, rfl⟩ := closure?_eq_some_iff.mp h
      exact mem_closure_iff inside hseeds
    case idempotent =>
      rintro seeds _ h
      obtain ⟨hseeds, rfl⟩ := closure?_eq_some_iff.mp h
      exact closure?_eq_some_iff.mpr ⟨fun _ => lt_of_mem_closure inside hseeds, closure_closure inside hseeds⟩
    case monotone =>
      rintro seeds seeds' _ _ h h' sub
      obtain ⟨-, rfl⟩ := closure?_eq_some_iff.mp h
      obtain ⟨hseeds', rfl⟩ := closure?_eq_some_iff.mp h'
      exact closure_mono inside hseeds' sub
    case append =>
      rintro seeds seeds' _ _ h h'
      obtain ⟨hseeds, rfl⟩ := closure?_eq_some_iff.mp h
      obtain ⟨hseeds', rfl⟩ := closure?_eq_some_iff.mp h'
      have all := List.forall_mem_append.mpr ⟨hseeds, hseeds'⟩
      exact closure?_eq_some_iff.mpr ⟨all, closure_append inside hseeds hseeds'⟩
    case steps => exact fun set c => closure?_eq_some_iff.mpr ⟨fun _ => lt_of_mem_move inside, rfl⟩
    case pairwise_step => exact fun set c => pairwise_closure nfa _
    case mem_step_iff => exact fun set c hset t => mem_step_iff inside hset
  exact ⟨fun nfa made => general nfa made.isClosed.target_lt, general⟩

/-- Three states in a circle of edges without labels, to which a letter leads back, and one with such an edge to itself. -/
def circles : Nfa where
  stateCount := 5
  edges := [⟨0, 1, none⟩, ⟨1, 2, none⟩, ⟨2, 0, none⟩, ⟨3, 3, none⟩, ⟨1, 3, some (.single 'a')⟩,
    ⟨2, 4, some (.single 'b')⟩, ⟨4, 0, none⟩]
  accepts := [3]
  start := 0

/-- The circle is left by reading only.  There are circles of the same kind in the automaton of `(a*)*`. -/
theorem simulatesExactly_circles : (∀ e ∈ circles.edges, e.target < circles.stateCount) ∧ circles.SimulatesExactly ∧
    circles.closure? [2] = some [0, 1, 2] ∧ 1 ∈ circles.step [0, 1, 2] 'b' ∧
    ∃ nfa, ofOperations? [.accept (.single 'a'), .star, .star] = some nfa ∧ nfa.IsMade ∧ nfa.SimulatesExactly := by
  have inside : ∀ e ∈ circles.edges, e.target < circles.stateCount := by decide
  have simulates := simulatesExactly.2 circles inside
  have first : circles.LeadsSilently 0 1 := .single (by decide)
  have back : circles.LeadsSilently 2 0 := .single (by decide)
  have round : ∀ t, t ∈ [0, 1, 2] ↔ ∃ s ∈ [2], circles.LeadsSilently s t := by
    have stays : ∀ e ∈ circles.edges, e.label = none → e.source ∈ [0, 1, 2] → e.target ∈ [0, 1, 2] := by decide
    intro t
    simp only [List.mem_singleton, exists_eq_left]
    constructor
    · intro ht
      rcases (by simpa using ht : t = 0 ∨ t = 1 ∨ t = 2) with rfl | rfl | rfl
      · exact back
      · exact back.trans first
      · exact .refl
    · intro leads
      induction leads with
      | refl => decide
      | tail _ edge here => exact stays _ edge rfl here
  refine ⟨inside, simulates, ?_, ?_, ?_⟩
  · obtain ⟨found, -, closure⟩ := simulates.ends [2] (by decide)
    have same := (simulates.pairwise _ _ closure).eq_of_mem_iff (show [0, 1, 2].Pairwise (· < ·) by decide)
      fun t => (simulates.mem_iff _ _ closure t).trans (round t).symm
    rw [closure, same]
  · have letter : ⟨2, 4, some (.single 'b')⟩ ∈ circles.edges := by decide
    have onward : circles.LeadsSilently 4 0 := .single (by decide)
    exact (simulates.mem_step_iff _ _ (by decide) _).mpr
      ⟨2, by decide, 4, _, letter, by decide, onward.trans first⟩
  · have made := IsMade.ofOperations (show ofOperations? [.accept (.single 'a'), .star, .star] = some _ from rfl)
    exact ⟨_, rfl, made, simulatesExactly.1 _ made⟩

end Nfa
end TableParsing
