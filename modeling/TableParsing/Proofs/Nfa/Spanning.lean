import Mathlib.Algebra.BigOperators.Group.Finset.Piecewise
import Mathlib.Logic.Relation
import TableParsing.Proofs.Nfa.Repetition

/-! # What fragments span

A fragment **spans** the states that edges lead to from its start, whatever is read along them.  Each of them leads on
to its end.  The area of a fragment may hold more than it spans: joining two fragments leaves the end of the first one
behind.

What a fragment spans is counted, its states and the edges that leave them.  Each operation adds its new states and
edges to those of its operands and drops none but the end that is left behind, so **the size of a fragment depends on
the sizes of its operands alone** (`PatternAlgebra.sizes`). -/

namespace TableParsing

/-! ## Connections -/

/-- Whether edges lead from one state to another, whatever is read along them. -/
def Connects (exits : Nat → List Exit) : Nat → Nat → Prop :=
  Relation.ReflTransGen fun s t => ∃ exit ∈ exits s, exit.target = t

section Connections
variable {exits exits' : Nat → List Exit} {area : Set Nat} {s t : Nat}

theorem Closed.mem_of_connects (closed : Closed exits area) (hs : s ∈ area) (h : Connects exits s t) : t ∈ area := by
  induction h with
  | refl => exact hs
  | tail _ step ih =>
    obtain ⟨exit, edge, rfl⟩ := step
    exact closed _ ih exit edge

/-- States that are mapped together with their edges stay connected. -/
theorem Connects.map {f : Nat → Nat} (closed : Closed exits area)
    (edges : ∀ s ∈ area, ∀ exit ∈ exits s, exit.retarget f ∈ exits' (f s)) (hs : s ∈ area) (h : Connects exits s t) :
    Connects exits' (f s) (f t) := by
  induction h with
  | refl => exact .refl
  | tail path step ih =>
    obtain ⟨exit, edge, rfl⟩ := step
    exact ih.tail ⟨_, edges _ (closed.mem_of_connects hs path) exit edge, rfl⟩

theorem Connects.congr (closed : Closed exits area) (same : ∀ s ∈ area, exits' s = exits s) (hs : s ∈ area)
    (h : Connects exits s t) : Connects exits' s t :=
  Connects.map (f := id) closed (fun s hs _ edge => same s hs ▸ edge) hs h

theorem Connects.mono (sub : ∀ s, ∀ exit ∈ exits s, exit ∈ exits' s) (h : Connects exits s t) :
    Connects exits' s t := by
  have closed : Closed exits Set.univ := fun _ _ _ _ => trivial
  exact Connects.map (f := id) closed (fun s _ => sub s) trivial h

end Connections

namespace Graph

variable {graph after : Graph} {area area' : Set Nat} {states other : Finset Nat} {edges : List Nfa.Edge}
  {a b x : Fragment} {p q : Passage} {n m n' m' s t : Nat}

/-! ## Sets of states -/

/-- The number of edges that leave some states. -/
def edgeCount (graph : Graph) (states : Finset Nat) : Nat := ∑ s ∈ states, (graph.outgoing s).length

/-- Whether some states have all their edges among them, and how many there are of both. -/
structure Encloses (graph : Graph) (states : Finset Nat) (n m : Nat) : Prop where
  within : ∀ s ∈ states, s < graph.stateCount
  closed : Closed graph.outgoing states
  card_eq : states.card = n
  edgeCount_eq : graph.edgeCount states = m

/-- The graph with some more edges. -/
def addEdges (graph : Graph) (edges : List Nfa.Edge) : Graph :=
  edges.foldl (fun graph e => graph.addEdge e.source e.target e.label) graph

theorem outgoing_addEdge {source target : Nat} {label : Option CharSet} (h : source < graph.stateCount) (s : Nat) :
    (graph.addEdge source target label).outgoing s =
      graph.outgoing s ++ if s = source then [⟨target, label⟩] else [] := by
  split
  · rename_i same
    subst same
    rw [outgoing, outgoing, addEdge, Array.getD_eq_getD_getElem?, Array.getD_eq_getD_getElem?, Array.getElem?_modify,
      if_pos rfl, Array.getElem?_eq_getElem h]
    rfl
  · rename_i other
    rw [outgoing_addEdge_of_ne _ other, List.append_nil]

theorem mem_outgoing_addEdges (h : ∀ e ∈ edges, e.source < graph.stateCount) {exit : Exit} :
    exit ∈ (graph.addEdges edges).outgoing s ↔
      exit ∈ graph.outgoing s ∨ ∃ e ∈ edges, e.source = s ∧ exit = ⟨e.target, e.label⟩ := by
  induction edges generalizing graph with
  | nil => simp [addEdges]
  | cons e edges ih =>
    obtain ⟨first, others⟩ := List.forall_mem_cons.mp h
    have step : graph.addEdges (e :: edges) = (graph.addEdge e.source e.target e.label).addEdges edges := rfl
    rw [step, ih (by rwa [stateCount_addEdge]), graph.mem_outgoing_addEdge first, or_assoc, List.exists_mem_cons_iff,
      eq_comm (a := s)]

namespace Encloses

theorem empty (graph : Graph) : graph.Encloses ∅ 0 0 := ⟨by simp, fun s hs => by simp at hs, rfl, rfl⟩

theorem addState (h : graph.Encloses states n m) :
    graph.addState.Encloses (insert graph.stateCount states) (n + 1) m := by
  have new : graph.stateCount ∉ states := fun hs => Nat.lt_irrefl _ (h.within _ hs)
  have last : graph.outgoing graph.stateCount = [] := graph.outgoing_of_le (Nat.le_refl _)
  refine ⟨fun s hs => ?_, ?_, ?_, ?_⟩
  · rw [stateCount_addState]
    rcases Finset.mem_insert.mp hs with rfl | hs
    · exact Nat.lt_succ_self _
    · exact Nat.lt_succ_of_lt (h.within s hs)
  · rw [outgoing_addState, Finset.coe_insert]
    exact h.closed.insert last
  · rw [Finset.card_insert_of_notMem new, h.card_eq]
  · rw [edgeCount, outgoing_addState, Finset.sum_insert new, last, List.length_nil, Nat.zero_add]
    exact h.edgeCount_eq

theorem addEdge {u v : Nat} (h : graph.Encloses states n m) (label : Option CharSet) (hu : u ∈ states)
    (hv : v ∈ states) : (graph.addEdge u v label).Encloses states n (m + 1) := by
  have bound := h.within u hu
  refine ⟨fun s hs => ?_, fun s hs exit edge => ?_, h.card_eq, ?_⟩
  · rw [stateCount_addEdge]
    exact h.within s hs
  · rcases (graph.mem_outgoing_addEdge bound s exit).mp edge with edge | ⟨-, rfl⟩
    · exact h.closed s hs exit edge
    · exact hv
  · have length (s : Nat) : ((graph.addEdge u v label).outgoing s).length =
        (graph.outgoing s).length + if s = u then 1 else 0 := by
      rw [outgoing_addEdge bound, List.length_append, apply_ite List.length]
      rfl
    rw [edgeCount, Finset.sum_congr rfl fun s _ => length s, Finset.sum_add_distrib, Finset.sum_ite_eq',
      if_pos hu]
    exact congrArg (· + 1) h.edgeCount_eq

/-- **Every new edge counts.** -/
theorem addEdges (h : graph.Encloses states n m) (ends : ∀ e ∈ edges, e.source ∈ states ∧ e.target ∈ states) :
    (graph.addEdges edges).Encloses states n (m + edges.length) := by
  induction edges generalizing graph m with
  | nil => exact h
  | cons e edges ih =>
    obtain ⟨⟨source, target⟩, others⟩ := List.forall_mem_cons.mp ends
    have counted := ih (h.addEdge e.label source target) others
    rwa [Nat.add_assoc, Nat.add_comm 1] at counted

theorem union (h : graph.Encloses states n m) (h' : graph.Encloses other n' m') (apart : Disjoint states other) :
    graph.Encloses (states ∪ other) (n + n') (m + m') where
  within s hs := (Finset.mem_union.mp hs).elim (h.within s) (h'.within s)
  closed s hs exit edge := by
    rw [Finset.coe_union] at hs ⊢
    exact hs.imp (h.closed s · exit edge) (h'.closed s · exit edge)
  card_eq := by rw [Finset.card_union_of_disjoint apart, h.card_eq, h'.card_eq]
  edgeCount_eq := by rw [edgeCount, Finset.sum_union apart, ← edgeCount, ← edgeCount, h.edgeCount_eq, h'.edgeCount_eq]

/-- What matters is the edges of the states. -/
theorem congr (h : graph.Encloses states n m) (le : graph.stateCount ≤ after.stateCount)
    (same : ∀ s ∈ states, after.outgoing s = graph.outgoing s) : after.Encloses states n m where
  within s hs := Nat.lt_of_lt_of_le (h.within s hs) le
  closed s hs exit edge := h.closed s hs exit (same s hs ▸ edge)
  card_eq := h.card_eq
  edgeCount_eq := by
    rw [edgeCount, Finset.sum_congr rfl fun s hs => congrArg List.length (same s hs)]
    exact h.edgeCount_eq

end Encloses

/-! ## Spanned states -/

/-- Whether a fragment spans some states: its start leads to all of them, and all of them lead to its end. -/
structure Spans (graph : Graph) (x : Fragment) (states : Finset Nat) : Prop where
  start_mem : x.start ∈ states
  enters : ∀ s ∈ states, Connects graph.outgoing x.start s
  leaves : ∀ s ∈ states, Connects graph.outgoing s x.accept

theorem Spans.accept_mem (spans : graph.Spans x states) (h : graph.Encloses states n m) : x.accept ∈ states :=
  h.closed.mem_of_connects spans.start_mem (spans.leaves _ spans.start_mem)

/-- They lie in the area of the fragment. -/
theorem Spans.subset (spans : graph.Spans x states) (h : graph.Holds x area p) : ∀ s ∈ states, s ∈ area := fun s hs =>
  h.closed.mem_of_connects h.start_mem (spans.enters s hs)

end Graph

/-! ## Sizes -/

/-- The size of a fragment. -/
structure Size where
  /-- The number of states in front of the end. -/
  states : Nat
  edges : Nat

/-- A chain of copies, with an edge to its end from every copy but the first `min`. -/
def Size.repeatBounded (x : Size) (min max : Nat) : Size :=
  let copies := Passage.chainLength min max
  ⟨copies * x.states, copies * x.edges + (copies - min)⟩

namespace PatternAlgebra

/-- **The sizes of patterns.** -/
def sizes : PatternAlgebra Size where
  accept _ := ⟨1, 1⟩
  concat a b := ⟨a.states + b.states, a.edges + b.edges⟩
  alternate a b := ⟨a.states + b.states + 3, a.edges + b.edges + 4⟩
  star x := ⟨x.states + 2, x.edges + 3⟩
  plus x := ⟨x.states + 1, x.edges + 2⟩
  optional x := ⟨x.states, x.edges + 1⟩
  «repeat» x min max :=
    match min, max with
    | min, some max => x.repeatBounded min max
    | 0, none => ⟨x.states + 2, x.edges + 3⟩
    | min, none => ⟨(x.repeatBounded min min).states + (x.states + 2), (x.repeatBounded min min).edges + (x.edges + 3)⟩

end PatternAlgebra

namespace Graph
variable {graph after : Graph} {area area' : Set Nat} {states : Finset Nat} {edges : List Nfa.Edge}
  {a b x : Fragment} {p q : Passage} {n m s t : Nat} {size size' : Size} {marks marks' : List Nat}

/-- Whether a fragment has a size, with some marks in front of its end. -/
def Measures (graph : Graph) (x : Fragment) (size : Size) (marks : List Nat) : Prop :=
  ∃ states, graph.Encloses states (size.states + 1) size.edges ∧ graph.Spans x states ∧
    ∀ s ∈ marks, s ∈ states ∧ s ≠ x.accept

/-- **Frame**: what happens elsewhere does not matter to the size of a fragment. -/
theorem Measures.frame (measures : graph.Measures x size marks) (h : graph.Holds x area p)
    (keeps : graph.Keeps after area') (apart : Disjoint area' area) : after.Measures x size marks := by
  obtain ⟨states, encloses, spans, inside⟩ := measures
  have same : ∀ s ∈ states, after.outgoing s = graph.outgoing s := fun s hs =>
    keeps.same area h.within h.closed apart s (spans.subset h s hs)
  refine ⟨states, encloses.congr keeps.le same, ⟨spans.start_mem, fun s hs => ?_, fun s hs => ?_⟩, inside⟩
  · exact (spans.enters s hs).congr encloses.closed same spans.start_mem
  · exact (spans.leaves s hs).congr encloses.closed same hs

/-! ### Edges -/

/-- What edges among enclosed states do. -/
structure Links (graph : Graph) (edges : List Nfa.Edge) (states : Finset Nat) (n m : Nat) : Prop where
  encloses : (graph.addEdges edges).Encloses states n (m + edges.length)
  old : ∀ s t, Connects graph.outgoing s t → Connects (graph.addEdges edges).outgoing s t
  new : ∀ e ∈ edges, Connects (graph.addEdges edges).outgoing e.source e.target

theorem Encloses.links (h : graph.Encloses states n m) (edges : List Nfa.Edge)
    (ends : ∀ e ∈ edges, e.source ∈ states ∧ e.target ∈ states) : graph.Links edges states n m := by
  have bound : ∀ e ∈ edges, e.source < graph.stateCount := fun e he => h.within _ (ends e he).1
  refine ⟨h.addEdges ends, fun s t path => ?_, fun e he => ?_⟩
  · exact path.mono fun _ _ edge => (mem_outgoing_addEdges bound).mpr (.inl edge)
  · exact .single ⟨⟨e.target, e.label⟩, (mem_outgoing_addEdges bound).mpr (.inr ⟨e, he, rfl, rfl⟩), rfl⟩

/-- Two new states. -/
theorem Encloses.addStates (h : graph.Encloses states n m) : graph.addState.addState.Encloses
    (insert (graph.stateCount + 1) (insert graph.stateCount states)) (n + 2) m := by
  have added := h.addState.addState
  rwa [stateCount_addState] at added

/-! ### The operations -/

theorem measures_accept (set : CharSet) :
    (graph.accept set).1.Measures (graph.accept set).2 (PatternAlgebra.sizes.accept set) [] := by
  let edges : List Nfa.Edge := [⟨graph.stateCount, graph.stateCount + 1, some set⟩]
  obtain ⟨encloses, -, new⟩ := (Encloses.empty graph).addStates.links edges (by simp [edges])
  have edge := List.forall_mem_singleton.mp new
  refine ⟨_, encloses, ⟨Finset.mem_insert_of_mem (Finset.mem_insert_self ..), ?_, ?_⟩, List.forall_mem_nil _⟩
  all_goals simp only [Finset.forall_mem_insert]
  · exact ⟨edge, .refl, by simp⟩
  · exact ⟨.refl, edge, by simp⟩

theorem measures_alternate (ha : graph.Holds a area p) (hb : graph.Holds b area' q) (apart : Disjoint area area')
    (measuresA : graph.Measures a size marks) (measuresB : graph.Measures b size' marks') :
    (graph.alternate a b).1.Measures (graph.alternate a b).2 (PatternAlgebra.sizes.alternate size size') [] := by
  obtain ⟨statesA, enclosesA, spansA, -⟩ := measuresA
  obtain ⟨statesB, enclosesB, spansB, -⟩ := measuresB
  have acceptA := spansA.accept_mem enclosesA
  have acceptB := spansB.accept_mem enclosesB
  have both := enclosesA.union enclosesB (Finset.disjoint_left.mpr fun s hs hs' =>
    Set.disjoint_left.mp apart (spansA.subset ha s hs) (spansB.subset hb s hs'))
  let edges : List Nfa.Edge := [⟨graph.stateCount, a.start, none⟩, ⟨graph.stateCount, b.start, none⟩,
    ⟨a.accept, graph.stateCount + 1, none⟩, ⟨b.accept, graph.stateCount + 1, none⟩]
  obtain ⟨encloses, old, new⟩ := both.addStates.links edges
    (by simp [edges, acceptA, acceptB, spansA.start_mem, spansB.start_mem])
  rw [outgoing_addState, outgoing_addState] at old
  simp only [edges, List.forall_mem_cons] at new
  obtain ⟨firstA, firstB, lastA, lastB, -⟩ := new
  have through := firstA.trans ((old _ _ (spansA.enters _ acceptA)).trans lastA)
  have count : size.states + 1 + (size'.states + 1) + 2 = size.states + size'.states + 3 + 1 := by omega
  rw [count] at encloses
  refine ⟨_, encloses, ⟨Finset.mem_insert_of_mem (Finset.mem_insert_self ..), ?_, ?_⟩, List.forall_mem_nil _⟩
  all_goals simp only [Finset.forall_mem_insert, Finset.forall_mem_union]
  · exact ⟨through, .refl, fun s hs => firstA.trans (old _ _ (spansA.enters s hs)),
      fun s hs => firstB.trans (old _ _ (spansB.enters s hs))⟩
  · exact ⟨.refl, through, fun s hs => (old _ _ (spansA.leaves s hs)).trans lastA,
      fun s hs => (old _ _ (spansB.leaves s hs)).trans lastB⟩

section One
variable (measures : graph.Measures x size marks)
include measures

theorem measures_star : (graph.star x).1.Measures (graph.star x).2 (PatternAlgebra.sizes.star size) [] := by
  obtain ⟨states, encloses, spans, -⟩ := measures
  have accept := spans.accept_mem encloses
  let edges : List Nfa.Edge := [⟨graph.stateCount, x.accept, none⟩, ⟨x.accept, x.start, none⟩,
    ⟨x.accept, graph.stateCount + 1, none⟩]
  obtain ⟨encloses, old, new⟩ := encloses.addStates.links edges (by simp [edges, accept, spans.start_mem])
  rw [outgoing_addState, outgoing_addState] at old
  simp only [edges, List.forall_mem_cons] at new
  obtain ⟨first, again, last, -⟩ := new
  refine ⟨_, encloses, ⟨Finset.mem_insert_of_mem (Finset.mem_insert_self ..), ?_, ?_⟩, List.forall_mem_nil _⟩
  all_goals simp only [Finset.forall_mem_insert]
  · exact ⟨first.trans last, .refl, fun s hs => first.trans (again.trans (old _ _ (spans.enters s hs)))⟩
  · exact ⟨.refl, first.trans last, fun s hs => (old _ _ (spans.leaves s hs)).trans last⟩

theorem measures_plus : (graph.plus x).1.Measures (graph.plus x).2 (PatternAlgebra.sizes.plus size) [] := by
  obtain ⟨states, encloses, spans, -⟩ := measures
  have accept := spans.accept_mem encloses
  let edges : List Nfa.Edge := [⟨x.accept, x.start, none⟩, ⟨x.accept, graph.stateCount, none⟩]
  obtain ⟨encloses, old, new⟩ := encloses.addState.links edges (by simp [edges, accept, spans.start_mem])
  rw [outgoing_addState] at old
  simp only [edges, List.forall_mem_cons] at new
  obtain ⟨-, last, -⟩ := new
  refine ⟨_, encloses, ⟨Finset.mem_insert_of_mem spans.start_mem, ?_, ?_⟩, List.forall_mem_nil _⟩
  all_goals simp only [Finset.forall_mem_insert]
  · exact ⟨(old _ _ (spans.enters _ accept)).trans last, fun s hs => old _ _ (spans.enters s hs)⟩
  · exact ⟨.refl, fun s hs => (old _ _ (spans.leaves s hs)).trans last⟩

/-- Edges to the end of a fragment from marks in front of it. -/
theorem measures_skips (copies : List Fragment) (marked : ∀ c ∈ copies, c.start ∈ marks) :
    (copies.foldl (fun graph c => graph.addEpsilon c.start x.accept) graph).Measures x
      ⟨size.states, size.edges + copies.length⟩ [] := by
  obtain ⟨states, encloses, spans, inside⟩ := measures
  have accept := spans.accept_mem encloses
  have links := encloses.links (copies.map fun c => ⟨c.start, x.accept, none⟩) (by
    simp only [List.forall_mem_map]
    exact fun c hc => ⟨(inside _ (marked c hc)).1, accept⟩)
  have made : copies.foldl (fun graph c => graph.addEpsilon c.start x.accept) graph =
      graph.addEdges (copies.map fun c => ⟨c.start, x.accept, none⟩) := by
    rw [addEdges, List.foldl_map]
    rfl
  obtain ⟨encloses, old, -⟩ := links
  rw [List.length_map] at encloses
  rw [made]
  exact ⟨states, encloses, ⟨spans.start_mem, fun s hs => old _ _ (spans.enters s hs),
    fun s hs => old _ _ (spans.leaves s hs)⟩, List.forall_mem_nil _⟩

end One

/-- The start is in front of the end. -/
theorem Measures.markStart (measures : graph.Measures x size marks) (h : graph.Holds x area p) :
    graph.Measures x size [x.start] := by
  obtain ⟨states, encloses, spans, -⟩ := measures
  exact ⟨states, encloses, spans, List.forall_mem_singleton.mpr ⟨spans.start_mem, h.start_ne⟩⟩

theorem measures_optional (h : graph.Holds x area p) (measures : graph.Measures x size marks) :
    (graph.optional x).1.Measures (graph.optional x).2 (PatternAlgebra.sizes.optional size) [] :=
  measures_skips (measures.markStart h) [x] (by simp)

/-! ### Joining -/

/-- Where an edge leads when the ends of two fragments are joined. -/
def bend (a b : Fragment) (s : Nat) : Nat := if s = a.accept then b.start else s

theorem bend_of_ne (h : s ≠ a.accept) : bend a b s = s := if_neg h

/-- What has been connected stays so, by way of the second start instead of the first end. -/
theorem Connects.bend (last : graph.outgoing a.accept = []) (h : Connects graph.outgoing s t) :
    Connects (graph.concat a b).1.outgoing (bend a b s) (bend a b t) := by
  induction h with
  | refl => exact .refl
  | @tail m _ _ step ih =>
    obtain ⟨exit, edge, rfl⟩ := step
    have ne : m ≠ a.accept := by
      rintro rfl
      rw [last] at edge
      cases edge
    rw [bend_of_ne ne] at ih
    refine ih.tail ⟨exit.retarget (Graph.bend a b), ?_, rfl⟩
    rw [outgoing_concat]
    exact List.mem_map_of_mem edge

section Join
variable {statesA statesB : Finset Nat} {n' m' : Nat} (last : graph.outgoing a.accept = [])
  (acceptA : a.accept ∈ statesA) (apart : Disjoint statesA statesB)
include last acceptA apart

/-- Joining drops the end of the first fragment, which no edge leaves. -/
theorem Encloses.join (enclosesA : graph.Encloses statesA (n + 1) m) (enclosesB : graph.Encloses statesB n' m')
    (startB : b.start ∈ statesB) :
    (graph.concat a b).1.Encloses (statesA.erase a.accept ∪ statesB) (n + n') (m + m') := by
  have disjoint := Finset.disjoint_of_subset_left (Finset.erase_subset a.accept statesA) apart
  refine ⟨?_, ?_, ?_, ?_⟩
  · rw [stateCount_concat]
    simp only [Finset.forall_mem_union]
    exact ⟨fun s hs => enclosesA.within s (Finset.mem_of_mem_erase hs), enclosesB.within⟩
  · intro s hs exit edge
    rw [outgoing_concat] at edge
    obtain ⟨exit', edge', rfl⟩ := List.mem_map.mp edge
    rw [Exit.retarget, Finset.mem_coe, Finset.mem_union, Finset.mem_erase]
    split
    · exact .inr startB
    · rename_i other
      rcases Finset.mem_union.mp hs with hs | hs
      · exact .inl ⟨other, enclosesA.closed s (Finset.mem_of_mem_erase hs) exit' edge'⟩
      · exact .inr (enclosesB.closed s hs exit' edge')
  · rw [Finset.card_union_of_disjoint disjoint, Finset.card_erase_of_mem acceptA, enclosesA.card_eq, enclosesB.card_eq,
      Nat.add_sub_cancel]
  · have length (s : Nat) : ((graph.concat a b).1.outgoing s).length = (graph.outgoing s).length := by
      rw [outgoing_concat, List.length_map]
    rw [edgeCount, Finset.sum_congr rfl fun s _ => length s, Finset.sum_union disjoint,
      Finset.sum_erase _ (by rw [last, List.length_nil])]
    exact congrArg₂ (· + ·) enclosesA.edgeCount_eq enclosesB.edgeCount_eq

/-- The first fragment leads through the second. -/
theorem Spans.join (spansA : graph.Spans a statesA) (spansB : graph.Spans b statesB) (start_ne : a.start ≠ a.accept)
    (acceptB : b.accept ∈ statesB) :
    (graph.concat a b).1.Spans (graph.concat a b).2 (statesA.erase a.accept ∪ statesB) := by
  have awayB {s : Nat} (hs : s ∈ statesB) : s ≠ a.accept := fun same =>
    Finset.disjoint_left.mp apart acceptA (same ▸ hs)
  have path {s t : Nat} (hs : s ≠ a.accept) (h : Connects graph.outgoing s t) :
      Connects (graph.concat a b).1.outgoing s (bend a b t) := bend_of_ne (b := b) hs ▸ Connects.bend last h
  have onward {s : Nat} (hs : s ≠ a.accept) (h : Connects graph.outgoing s a.accept) :
      Connects (graph.concat a b).1.outgoing s b.start := by
    have toEnd := path hs h
    rwa [bend, if_pos rfl] at toEnd
  have inside {s t : Nat} (hs : s ≠ a.accept) (ht : t ≠ a.accept) (h : Connects graph.outgoing s t) :
      Connects (graph.concat a b).1.outgoing s t := bend_of_ne (b := b) ht ▸ path hs h
  have first := onward start_ne (spansA.enters _ acceptA)
  have final {s : Nat} (hs : s ∈ statesB) := inside (awayB hs) (awayB acceptB) (spansB.leaves s hs)
  refine ⟨Finset.mem_union_left _ (Finset.mem_erase.mpr ⟨start_ne, spansA.start_mem⟩), ?_, ?_⟩
  all_goals simp only [Finset.forall_mem_union, Finset.mem_erase]
  · refine ⟨fun s there => inside start_ne there.1 (spansA.enters s there.2), fun s hs => ?_⟩
    exact first.trans (inside (awayB spansB.start_mem) (awayB hs) (spansB.enters s hs))
  · refine ⟨fun s there => ?_, fun s hs => final hs⟩
    exact (onward there.1 (spansA.leaves s there.2)).trans (final spansB.start_mem)

end Join

/-- **The one state that is dropped is the end of the first fragment.** -/
theorem measures_concat (ha : graph.Holds a area p) (hb : graph.Holds b area' q) (apart : Disjoint area area')
    (measuresA : graph.Measures a size marks) (measuresB : graph.Measures b size' marks') :
    (graph.concat a b).1.Measures (graph.concat a b).2 (PatternAlgebra.sizes.concat size size') (marks ++ marks') := by
  obtain ⟨statesA, enclosesA, spansA, marksA⟩ := measuresA
  obtain ⟨statesB, enclosesB, spansB, marksB⟩ := measuresB
  have acceptA := spansA.accept_mem enclosesA
  have acceptB := spansB.accept_mem enclosesB
  have apart : Disjoint statesA statesB := Finset.disjoint_left.mpr fun s hs hs' =>
    Set.disjoint_left.mp apart (spansA.subset ha s hs) (spansB.subset hb s hs')
  have encloses := enclosesA.join ha.last acceptA apart enclosesB spansB.start_mem
  have spans := spansA.join ha.last acceptA apart spansB ha.start_ne acceptB
  refine ⟨_, encloses, spans, fun s hs => ?_⟩
  rcases List.mem_append.mp hs with hs | hs
  · obtain ⟨mem, ne⟩ := marksA s hs
    refine ⟨Finset.mem_union_left _ (Finset.mem_erase.mpr ⟨ne, mem⟩), fun same => ?_⟩
    exact Finset.disjoint_left.mp apart mem (same ▸ acceptB)
  · obtain ⟨mem, ne⟩ := marksB s hs
    exact ⟨Finset.mem_union_right _ mem, ne⟩

/-! ### Copies -/

theorem measures_copy (h : graph.Holds x area p) (measures : graph.Measures x size marks) :
    (graph.copy x).1.Measures (graph.copy x).2 size [] := by
  obtain ⟨states, encloses, spans, -⟩ := measures
  have found : ∀ s ∈ states, s ∈ (graph.reachable x.start).toList := fun s hs =>
    (closed_reachable h).mem_of_connects start_mem_reachable (spans.enters s hs)
  have inj : Set.InjOn (graph.copied x) states := injOn_copied.mono fun s hs => .inl (found s hs)
  have first : (graph.copy x).2.start = graph.copied x x.start := by
    rw [copied, numberOf_start, Nat.add_zero]
    rfl
  have path {s t : Nat} (hs : s ∈ states) (h' : Connects graph.outgoing s t) :
      Connects (graph.copy x).1.outgoing (graph.copied x s) (graph.copied x t) :=
    h'.map encloses.closed
      (fun s hs exit edge => (mem_outgoing_copied h (.inl (found s hs)) _).mpr ⟨exit, edge, rfl⟩) hs
  refine ⟨states.image (graph.copied x), ⟨?_, ?_, ?_, ?_⟩, ⟨?_, ?_, ?_⟩, List.forall_mem_nil _⟩
  · rw [Finset.forall_mem_image]
    exact fun s hs => lt_stateCount_copied (.inl (found s hs))
  · rw [Finset.coe_image]
    rintro _ ⟨s, hs, rfl⟩ exit' edge'
    obtain ⟨exit, edge, rfl⟩ := (mem_outgoing_copied h (.inl (found s hs)) exit').mp edge'
    exact ⟨exit.target, encloses.closed s hs exit edge, rfl⟩
  · rw [Finset.card_image_of_injOn inj, encloses.card_eq]
  · have length (s : Nat) (hs : s ∈ states) :
        ((graph.copy x).1.outgoing (graph.copied x s)).length = (graph.outgoing s).length := by
      rw [outgoing_copy_of_mem (found s hs), List.length_map]
    rw [edgeCount, Finset.sum_image inj, Finset.sum_congr rfl length]
    exact encloses.edgeCount_eq
  · rw [first]
    exact Finset.mem_image_of_mem _ spans.start_mem
  · rw [Finset.forall_mem_image, first]
    exact fun s hs => path spans.start_mem (spans.enters s hs)
  · rw [Finset.forall_mem_image]
    exact fun s hs => path hs (spans.leaves s hs)

theorem measures_copies (h : graph.Holds x area p) (measures : graph.Measures x size marks) (n : Nat) :
    ∀ y ∈ (graph.copies x n).2, (graph.copies x n).1.Measures y size [y.start] := by
  induction n generalizing graph with
  | zero => exact List.forall_mem_nil _
  | succ n ih =>
    obtain ⟨keeps, first, -, holds⟩ := makes_copy h
    have apart := Set.empty_disjoint (α := Nat)
    obtain ⟨keeps', -⟩ := laid_copies (h.frame keeps (apart _)) n
    refine List.forall_mem_cons.mpr ⟨?_, ih (h.frame keeps (apart _)) (measures.frame h keeps (apart _))⟩
    exact ((measures_copy h measures).markStart holds).frame holds keeps' (apart _)

/-- **A chain of fragments of one size**, with the starts of all of them as marks. -/
theorem measures_chain {rest : List Fragment} {ps : List Passage} (h : graph.Holds a area p)
    (measures : graph.Measures a size marks) (laid : graph.Laid area rest ps)
    (others : ∀ y ∈ rest, graph.Measures y size' [y.start]) : (graph.chain a rest).1.Measures (graph.chain a rest).2
      ⟨size.states + rest.length * size'.states, size.edges + rest.length * size'.edges⟩
      (marks ++ rest.map (·.start)) := by
  induction rest generalizing graph a area p ps size marks with
  | nil => simpa [chain] using measures
  | cons next rest ih =>
    obtain ⟨first, others⟩ := List.forall_mem_cons.mp others
    cases laid with
    | @cons _ areaN _ _ _ _ holds apart laid =>
      have keeps : graph.Keeps (graph.concat a next).1 (area ∪ areaN) := (keeps_concat h).mono Set.subset_union_left
      have joined := measures_concat h holds apart measures first
      have whole := ih (holds_concat h holds apart) joined (laid.frame keeps Set.subset_union_left) fun y hy => by
        obtain ⟨_, _, holdsY, apartY⟩ := laid.exists_holds hy
        exact (others y hy).frame holdsY keeps apartY
      rw [List.append_assoc] at whole
      have total (first each : Nat) : first + each + rest.length * each = first + (rest.length + 1) * each := by
        rw [Nat.add_mul, Nat.one_mul, Nat.add_assoc, Nat.add_comm each]
      rwa [PatternAlgebra.sizes, total, total] at whole

/-! ### Repetition -/

theorem measures_repeatBounded (h : graph.Holds x area p) (measures : graph.Measures x size marks) (min max : Nat) :
    (graph.repeatBounded x min max).1.Measures (graph.repeatBounded x min max).2 (size.repeatBounded min max) [] := by
  obtain ⟨keeps, laid⟩ := laid_copies h (Nat.max max min - 1)
  have beside := laid.mono fun s hs => .inl (h.within s hs)
  have apart := Set.empty_disjoint area
  let others := (graph.copies x (Nat.max max min - 1)).2
  have chained := measures_chain (h.frame keeps apart) ((measures.markStart h).frame h keeps apart) beside
    (measures_copies h measures _)
  have skips := measures_skips chained ((x :: others).drop min) fun c hc =>
    List.mem_map_of_mem (f := (·.start)) (List.mem_of_mem_drop hc)
  have count : others.length + 1 = Passage.chainLength min max := by
    rw [laid.length_eq, List.length_replicate, Passage.chainLength]
  have total (each : Nat) : each + others.length * each = Passage.chainLength min max * each := by
    rw [← count, Nat.succ_mul, Nat.add_comm]
  rw [total, total, List.length_drop, List.length_cons, count] at skips
  exact skips

theorem measures_repeat (h : graph.Holds x area p) (measures : graph.Measures x size marks) (min : Nat)
    (max : Option Nat) : (graph.repeat x min max).1.Measures (graph.repeat x min max).2
      (PatternAlgebra.sizes.repeat size min max) [] := by
  cases max with
  | some max => exact measures_repeatBounded h measures min max
  | none =>
    cases min with
    | zero => exact measures_star measures
    | succ min =>
      obtain ⟨areaH, areaT, keepsTail, keepsHead, -, -, head, tail, apart, disjoint⟩ := exists_parts h (min + 1)
      have outside := Set.empty_disjoint area
      have measuresTail := (measures_star (measures_copy h measures)).frame tail keepsHead apart
      have measuresHead := measures_repeatBounded (h.frame keepsTail outside) (measures.frame h keepsTail outside)
        (min + 1) (min + 1)
      exact measures_concat head (tail.frame keepsHead apart) disjoint measuresHead measuresTail

end Graph
end TableParsing
