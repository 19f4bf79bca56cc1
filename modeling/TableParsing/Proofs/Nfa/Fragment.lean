import TableParsing.Proofs.Nfa.Passage

/-! # Fragments and their areas

Every fragment has an **area** of states of its own, which no edge leaves.  The areas of the fragments on a
stack do not overlap.  An operation changes the edges of states in the areas of its operands only and makes
new states, so it keeps all that other fragments are about (`Graph.Keeps`).

What holds of a fragment is `Graph.Holds`: no edge leaves its end, and its passage says which words lead
from its start to its end and back to its start. -/

namespace TableParsing

open Computability

namespace Graph
variable (graph : Graph)

/-! ## Edges of a changed graph -/

theorem outgoing_of_le {s : Nat} (h : graph.stateCount ≤ s) : graph.outgoing s = [] := by
  rw [outgoing, Array.getD_eq_getD_getElem?, Array.getElem?_eq_none h]
  rfl

@[simp]
theorem stateCount_addState : graph.addState.stateCount = graph.stateCount + 1 := Array.size_push ..

@[simp]
theorem outgoing_addState : graph.addState.outgoing = graph.outgoing := by
  funext s
  rw [outgoing, outgoing, addState, Array.getD_eq_getD_getElem?, Array.getD_eq_getD_getElem?,
    Array.getElem?_push]
  split <;> rename_i h
  · rw [h, Array.getElem?_eq_none (Nat.le_refl _)]
    rfl
  · rfl

@[simp]
theorem stateCount_addEdge (source target : Nat) (label : Option CharSet) :
    (graph.addEdge source target label).stateCount = graph.stateCount := Array.size_modify ..

theorem outgoing_addEdge_of_ne {source target s : Nat} {label : Option CharSet} (h : s ≠ source) :
    (graph.addEdge source target label).outgoing s = graph.outgoing s := by
  rw [outgoing, outgoing, addEdge, Array.getD_eq_getD_getElem?, Array.getD_eq_getD_getElem?,
    Array.getElem?_modify, if_neg (Ne.symm h)]

theorem mem_outgoing_addEdge {source target : Nat} {label : Option CharSet}
    (h : source < graph.stateCount) (s : Nat) (exit : Exit) :
    exit ∈ (graph.addEdge source target label).outgoing s ↔
      exit ∈ graph.outgoing s ∨ s = source ∧ exit = ⟨target, label⟩ := by
  by_cases hs : s = source
  · subst hs
    rw [outgoing, outgoing, addEdge, Array.getD_eq_getD_getElem?, Array.getD_eq_getD_getElem?,
      Array.getElem?_modify, if_pos rfl, Array.getElem?_eq_getElem h]
    simp
  · rw [graph.outgoing_addEdge_of_ne hs]
    simp [hs]

theorem outgoing_concat (a b : Fragment) (s : Nat) :
    (graph.concat a b).1.outgoing s =
      (graph.outgoing s).map (·.retarget fun s => if s = a.accept then b.start else s) := by
  rw [outgoing, outgoing, concat, Array.getD_eq_getD_getElem?, Array.getD_eq_getD_getElem?,
    Array.getElem?_map]
  cases graph.exits[s]? <;> rfl

theorem stateCount_concat (a b : Fragment) : (graph.concat a b).1.stateCount = graph.stateCount :=
  Array.size_map

/-! ## What is kept -/

/-- The numbers that no state has yet. -/
def unused : Set Nat := {s | graph.stateCount ≤ s}

/-- The graph `after` has the states of `graph` and all edges outside `area`. -/
structure Keeps (after : Graph) (area : Set Nat) : Prop where
  le : graph.stateCount ≤ after.stateCount
  same : ∀ other : Set Nat, (∀ s ∈ other, s < graph.stateCount) → Closed graph.outgoing other →
    Disjoint area other → ∀ s ∈ other, after.outgoing s = graph.outgoing s

/-- What holds of a fragment with an area of its own. -/
structure Holds (x : Fragment) (area : Set Nat) (p : Passage) : Prop where
  within : ∀ s ∈ area, s < graph.stateCount
  closed : Closed graph.outgoing area
  start_mem : x.start ∈ area
  accept_mem : x.accept ∈ area
  start_ne : x.start ≠ x.accept
  last : graph.outgoing x.accept = []
  through : between graph.outgoing x.start x.accept = p.through
  back : between graph.outgoing x.start x.start = p.back

/-- What an operation on fragments in `area` achieves. -/
structure Makes (area : Set Nat) (result : Graph × Fragment) (p : Passage) : Prop where
  keeps : graph.Keeps result.1 area
  holds : ∃ area', area' ⊆ area ∪ graph.unused ∧ result.1.Holds result.2 area' p

variable {graph} {after last : Graph} {area area' : Set Nat} {x : Fragment} {p : Passage}

namespace Keeps

theorem refl : graph.Keeps graph area := ⟨Nat.le_refl _, fun _ _ _ _ _ _ => rfl⟩

theorem mono (h : graph.Keeps after area) (sub : area ⊆ area') : graph.Keeps after area' :=
  ⟨h.le, fun other within closed apart => h.same other within closed (apart.mono_left sub)⟩

theorem trans (h : graph.Keeps after area) (h' : after.Keeps last area')
    (sub : area' ⊆ area ∪ graph.unused) : graph.Keeps last area := by
  refine ⟨Nat.le_trans h.le h'.le, ?_⟩
  intro other within closed apart s hs
  have same := h.same other within closed apart
  -- new states are not among the old ones that are looked at
  have apart' : Disjoint area' other := by
    rw [Set.disjoint_left] at apart ⊢
    intro s hs hother
    rcases sub hs with hs | hs
    · exact apart hs hother
    · exact absurd (within s hother) (Nat.not_lt.mpr hs)
  have closed' : Closed after.outgoing other := fun s hs exit edge => closed s hs exit (same s hs ▸ edge)
  exact (h'.same other (fun s hs => Nat.lt_of_lt_of_le (within s hs) h.le) closed' apart' s hs).trans
    (same s hs)

theorem addState (h : graph.Keeps after area) : graph.Keeps after.addState area := by
  refine ⟨?_, ?_⟩
  · rw [stateCount_addState]
    exact Nat.le_succ_of_le h.le
  · intro other within closed apart s hs
    rw [outgoing_addState]
    exact h.same other within closed apart s hs

theorem addEdge {source target : Nat} {label : Option CharSet} (h : graph.Keeps after area)
    (hsource : source ∈ area ∪ graph.unused) : graph.Keeps (after.addEdge source target label) area := by
  refine ⟨?_, ?_⟩
  · rw [stateCount_addEdge]
    exact h.le
  · intro other within closed apart s hs
    have ne : s ≠ source := by
      rintro rfl
      rcases hsource with hsource | hsource
      · exact Set.disjoint_left.mp apart hsource hs
      · exact absurd (within s hs) (Nat.not_lt.mpr hsource)
    rw [outgoing_addEdge_of_ne _ ne]
    exact h.same other within closed apart s hs

theorem unused_subset (h : graph.Keeps after area) : after.unused ⊆ graph.unused :=
  fun _ hs => Nat.le_trans h.le hs

end Keeps

/-- What is made later, of things that have been made. -/
theorem Makes.of_keeps {result : Graph × Fragment} (made : after.Makes area' result p)
    (keeps : graph.Keeps after area) (sub : area' ⊆ area ∪ graph.unused) : graph.Makes area result p := by
  obtain ⟨keeps', made, sub', holds⟩ := made
  refine ⟨keeps.trans keeps' sub, made, ?_, holds⟩
  intro s hs
  rcases sub' hs with hs | hs
  · exact sub hs
  · exact .inr (keeps.unused_subset hs)

/-- New states are apart from old ones. -/
theorem disjoint_of_unused (within : ∀ s ∈ area, s < graph.stateCount) (new : area' ⊆ graph.unused) :
    Disjoint area area' := by
  rw [Set.disjoint_left]
  intro s hs hnew
  exact Nat.not_lt.mpr (new hnew) (within s hs)

namespace Holds

theorem lt_start (h : graph.Holds x area p) : x.start < graph.stateCount := h.within _ h.start_mem

theorem lt_accept (h : graph.Holds x area p) : x.accept < graph.stateCount := h.within _ h.accept_mem

/-- **Frame**: what happens elsewhere does not matter to a fragment. -/
theorem frame (h : graph.Holds x area p) (keeps : graph.Keeps after area') (apart : Disjoint area' area) :
    after.Holds x area p := by
  have same := keeps.same area h.within h.closed apart
  exact {
    within := fun s hs => Nat.lt_of_lt_of_le (h.within s hs) keeps.le
    closed := fun s hs exit edge => h.closed s hs exit (same s hs ▸ edge)
    start_mem := h.start_mem
    accept_mem := h.accept_mem
    start_ne := h.start_ne
    last := (same _ h.accept_mem).trans h.last
    through := (between_congr h.closed same h.start_mem).trans h.through
    back := (between_congr h.closed same h.start_mem).trans h.back }

/-- There is no way out of the area. -/
theorem between_eq_zero {s t : Nat} (h : graph.Holds x area p) (hs : s ∈ area) (ht : t ∉ area) :
    between graph.outgoing s t = 0 := h.closed.between_eq_zero hs ht

/-- There is no way out of the end. -/
theorem between_accept {t : Nat} (h : graph.Holds x area p) (ht : x.accept ≠ t) :
    between graph.outgoing x.accept t = 0 := between_of_eq_nil h.last ht

end Holds
end Graph
end TableParsing
