import TableParsing.Proofs.Nfa.Fragment

/-! # Operations on fragments

Each operation makes of the fragments it is given, in areas that do not overlap, a fragment with the passage
that `PatternAlgebra.passages` says.  What an edge adds is calculated in the order in which the edges are
made; a fresh state is one that nothing leads to and nothing leaves. -/

namespace TableParsing

open Computability

namespace Graph
variable {graph : Graph} {u v s t : Nat} {area : Set Nat}

/-! ## Edges that read nothing -/

theorem mem_outgoing_addEpsilon (h : u < graph.stateCount) (s : Nat) (exit : Exit) :
    exit ∈ (graph.addEpsilon u v).outgoing s ↔ exit ∈ graph.outgoing s ∨ s = u ∧ exit = ⟨v, none⟩ :=
  mem_outgoing_addEdge _ h s exit

theorem stateCount_addEpsilon (u v : Nat) : (graph.addEpsilon u v).stateCount = graph.stateCount :=
  graph.stateCount_addEdge u v none

theorem words_epsilon : (⟨v, none⟩ : Exit).words = 1 := rfl

/-- An edge that may be taken any number of times. -/
theorem between_addEpsilon (h : u < graph.stateCount) :
    between (graph.addEpsilon u v).outgoing s t = between graph.outgoing s t +
      between graph.outgoing s u * (between graph.outgoing v u)∗ * between graph.outgoing v t := by
  simpa only [words_epsilon, one_mul] using between_add (mem_outgoing_addEpsilon h)

/-- An edge out of a state to which no walk comes back. -/
theorem between_addEpsilon_first (h : u < graph.stateCount) (once : between graph.outgoing u u = 1)
    (away : between graph.outgoing v u = 0) :
    between (graph.addEpsilon u v).outgoing u t =
      between graph.outgoing u t + between graph.outgoing v t := by
  simpa only [words_epsilon, one_mul] using between_add_first (mem_outgoing_addEpsilon h) once away

/-- An edge that is no part of a way. -/
theorem between_addEpsilon_of_eq_zero (h : u < graph.stateCount)
    (away : between graph.outgoing s u = 0 ∨ between graph.outgoing v t = 0) :
    between (graph.addEpsilon u v).outgoing s t = between graph.outgoing s t :=
  between_add_of_eq_zero (mem_outgoing_addEpsilon h) away

/-! ## Building a fragment

A fragment is built between a start and an end by adding edges within its area, none of them out of the
end. -/

section Building
variable {x : Fragment} {p q : Passage}

theorem mem_unused : graph.stateCount ∈ graph.unused := Nat.le_refl _

theorem succ_mem_unused : graph.stateCount + 1 ∈ graph.unused := Nat.le_succ _

theorem outgoing_of_mem_unused (h : s ∈ graph.unused) : graph.outgoing s = [] := graph.outgoing_of_le h

theorem insert_subset_union {other : Set Nat} (h : s ∈ graph.unused) (sub : other ⊆ area ∪ graph.unused) :
    insert s other ⊆ area ∪ graph.unused :=
  Set.insert_subset (.inr h) sub

/-- Two new states, beside an area that will lie between them. -/
theorem holds_new (graph : Graph) {area : Set Nat} (within : ∀ s ∈ area, s < graph.stateCount)
    (closed : Closed graph.outgoing area) :
    graph.addState.addState.Holds ⟨graph.stateCount, graph.stateCount + 1⟩
      (insert graph.stateCount (insert (graph.stateCount + 1) area)) ⟨0, 1⟩ := by
  have first := outgoing_of_mem_unused graph.mem_unused
  have last := outgoing_of_mem_unused graph.succ_mem_unused
  have ne : graph.stateCount ≠ graph.stateCount + 1 := (Nat.succ_ne_self _).symm
  refine {
    within := ?_
    closed := ?_
    start_mem := .inl rfl
    accept_mem := .inr (.inl rfl)
    start_ne := ne
    last := ?_
    through := ?_
    back := ?_ }
  · rw [stateCount_addState, stateCount_addState]
    rintro s (rfl | rfl | hs)
    · omega
    · omega
    · exact Nat.lt_of_lt_of_le (within s hs) (by omega)
  all_goals rw [outgoing_addState, outgoing_addState]
  · exact (closed.insert last).insert first
  · exact last
  · exact between_of_eq_nil first ne
  · exact between_self_of_eq_nil first

/-- One more edge within the area. -/
theorem Holds.addEdge {label : Option CharSet} (h : graph.Holds x area p) (hu : u ∈ area) (hv : v ∈ area)
    (hne : u ≠ x.accept)
    (through : between (graph.addEdge u v label).outgoing x.start x.accept = q.through)
    (back : between (graph.addEdge u v label).outgoing x.start x.start = q.back) :
    (graph.addEdge u v label).Holds x area q where
  within s hs := (graph.stateCount_addEdge u v label).symm ▸ h.within s hs
  closed s hs exit edge := by
    rcases (mem_outgoing_addEdge _ (h.within u hu) s exit).mp edge with edge | ⟨rfl, rfl⟩
    · exact h.closed s hs exit edge
    · exact hv
  start_mem := h.start_mem
  accept_mem := h.accept_mem
  start_ne := h.start_ne
  last := (outgoing_addEdge_of_ne _ hne.symm).trans h.last
  through := through
  back := back

/-- An edge to the end changes nothing but the words that lead there. -/
theorem Holds.between_leave {label : Option CharSet} (h : graph.Holds x area p) (hu : u ∈ area)
    (ht : t ≠ x.accept) :
    between (graph.addEdge u x.accept label).outgoing s t = between graph.outgoing s t :=
  between_add_of_eq_zero (mem_outgoing_addEdge _ (h.within u hu)) (.inr (h.between_accept ht.symm))

/-- **An edge to the end** adds the words that lead to where it begins. -/
theorem Holds.leave {L : Language Char} (h : graph.Holds x area p) (label : Option CharSet) (hu : u ∈ area)
    (hne : u ≠ x.accept) (words : between graph.outgoing x.start u = L) :
    (graph.addEdge u x.accept label).Holds x area
      ⟨p.through + L * Exit.words ⟨x.accept, label⟩, p.back⟩ := by
  refine h.addEdge hu h.accept_mem hne ?_ ((h.between_leave hu h.start_ne).trans h.back)
  rw [← h.through, ← words]
  exact between_add_last (mem_outgoing_addEdge _ (h.within u hu)) h.last hne

/-- An edge from the start into an area from where neither the start nor the end can be reached. -/
theorem Holds.enter (h : graph.Holds x area ⟨0, 1⟩) (hv : v ∈ area)
    (start : between graph.outgoing v x.start = 0) (accept : between graph.outgoing v x.accept = 0) :
    (graph.addEpsilon x.start v).Holds x area ⟨0, 1⟩ := by
  refine h.addEdge h.start_mem hv h.start_ne ?_ ?_
  · exact (between_addEpsilon_of_eq_zero h.lt_start (.inr accept)).trans h.through
  · exact (between_addEpsilon_of_eq_zero h.lt_start (.inr start)).trans h.back

/-- What can be reached from the start after it has been given an edge. -/
theorem Holds.between_enter (h : graph.Holds x area ⟨0, 1⟩) (start : between graph.outgoing v x.start = 0) :
    between (graph.addEpsilon x.start v).outgoing x.start t =
      between graph.outgoing x.start t + between graph.outgoing v t :=
  between_addEpsilon_first h.lt_start h.back start

end Building

/-! ## A new start

A state that has just been made is given edges into an area.  The walks inside do not notice. -/

section Entering
variable {area : Set Nat}

/-- No way leads out of an area to a new state. -/
theorem between_new_eq_zero (within : ∀ s ∈ area, s < graph.stateCount)
    (closed : Closed graph.outgoing area) (ht : t ∈ area) (hu : u ∈ graph.unused) :
    between graph.addState.addState.outgoing t u = 0 := by
  rw [outgoing_addState, outgoing_addState]
  refine closed.between_eq_zero ht ?_
  intro h
  exact Nat.not_lt.mpr hu (within u h)

theorem between_entered (within : ∀ s ∈ area, s < graph.stateCount) (closed : Closed graph.outgoing area)
    (ht : t ∈ area) :
    between (graph.addState.addState.addEpsilon graph.stateCount v).outgoing t u =
      between graph.outgoing t u := by
  have bound : graph.stateCount < graph.addState.addState.stateCount := by
    rw [stateCount_addState, stateCount_addState]
    omega
  have away := between_new_eq_zero within closed ht graph.mem_unused
  rw [between_addEpsilon_of_eq_zero bound (.inl away), outgoing_addState, outgoing_addState]

/-- A new state leads to nothing yet. -/
theorem between_stateCount (within : ∀ s ∈ area, s < graph.stateCount) (ht : t ∈ area) :
    between graph.addState.addState.outgoing graph.stateCount t = 0 := by
  rw [outgoing_addState, outgoing_addState]
  exact between_of_eq_nil (outgoing_of_mem_unused graph.mem_unused) (Nat.ne_of_gt (within t ht))

end Entering

/-! ## The operations -/

section Operations
variable {a b x : Fragment} {areaA areaB : Set Nat} {p q : Passage}

/-- A fragment for one character. -/
theorem makes_accept (set : CharSet) :
    graph.Makes ∅ (graph.accept set) (PatternAlgebra.passages.accept set) := by
  have new := graph.holds_new (fun s hs => hs.elim) closed_empty
  have made := new.leave (some set) new.start_mem new.start_ne new.back
  refine ⟨Keeps.refl.addState.addState.addEdge (.inr graph.mem_unused), _,
    insert_subset_union graph.mem_unused (insert_subset_union graph.succ_mem_unused (Set.empty_subset _)), ?_⟩
  rw [zero_add, one_mul] at made
  exact made

theorem keeps_concat (ha : graph.Holds a areaA p) : graph.Keeps (graph.concat a b).1 areaA := by
  refine ⟨Nat.le_of_eq (stateCount_concat ..).symm, ?_⟩
  intro other _ closed away s hs
  rw [outgoing_concat]
  refine (List.map_congr_left fun exit edge => ?_).trans (List.map_id _)
  have ne : exit.target ≠ a.accept := fun h =>
    Set.disjoint_right.mp away (closed s hs exit edge) (h ▸ ha.accept_mem)
  rw [Exit.retarget, if_neg ne]
  rfl

section Concat
variable (ha : graph.Holds a areaA p) (hb : graph.Holds b areaB q) (apart : Disjoint areaA areaB)
include ha hb apart

theorem between_concat (hs : s ≠ a.accept) (ht : t ≠ a.accept) :
    between (graph.concat a b).1.outgoing s t = between graph.outgoing s t +
      between graph.outgoing s a.accept * between graph.outgoing b.start t := by
  refine between_bend (f := fun s => if s = a.accept then b.start else s) (if_pos rfl)
    (fun s hs => if_neg hs) (fun s exit => ?_) ha.last ?_ hs ht
  · rw [outgoing_concat, List.mem_map]
    exact exists_congr fun exit => and_congr_right fun _ => eq_comm
  · exact hb.between_eq_zero hb.start_mem (Set.disjoint_left.mp apart ha.accept_mem)

/-- The first fragment is as before, but for its end. -/
theorem between_concat_left (ht : t ∈ areaA) (hne : t ≠ a.accept) :
    between (graph.concat a b).1.outgoing a.start t = between graph.outgoing a.start t := by
  rw [between_concat ha hb apart ha.start_ne hne,
    hb.between_eq_zero hb.start_mem (Set.disjoint_left.mp apart ht), mul_zero, add_zero]

/-- The second fragment begins where the first one ended. -/
theorem between_concat_right (ht : t ∈ areaB) :
    between (graph.concat a b).1.outgoing a.start t = p.through * between graph.outgoing b.start t := by
  have away : t ∉ areaA := Set.disjoint_right.mp apart ht
  have hne : t ≠ a.accept := fun h => away (h ▸ ha.accept_mem)
  rw [between_concat ha hb apart ha.start_ne hne, ha.between_eq_zero ha.start_mem away, zero_add, ha.through]

theorem holds_concat : (graph.concat a b).1.Holds (graph.concat a b).2 (areaA ∪ areaB)
    (PatternAlgebra.passages.concat p q) := by
  -- the edges are the old ones, but for those that are bent to the second start
  have bent : ∀ s exit, exit ∈ (graph.concat a b).1.outgoing s → exit.target = b.start ∨
      ∃ exit' ∈ graph.outgoing s, exit.target = exit'.target := by
    intro s exit edge
    rw [outgoing_concat, List.mem_map] at edge
    obtain ⟨exit', edge', rfl⟩ := edge
    by_cases h : exit'.target = a.accept
    · exact .inl (if_pos h)
    · exact .inr ⟨exit', edge', if_neg h⟩
  exact {
    within := fun s hs => by
      rw [stateCount_concat]
      exact hs.elim (ha.within s) (hb.within s)
    closed := fun s hs exit edge => by
      rcases bent s exit edge with h | ⟨exit', edge', h⟩
      · exact .inr (h ▸ hb.start_mem)
      · rw [h]
        exact hs.imp (fun hs => ha.closed s hs exit' edge') fun hs => hb.closed s hs exit' edge'
    start_mem := .inl ha.start_mem
    accept_mem := .inr hb.accept_mem
    start_ne := fun h => Set.disjoint_left.mp apart (h ▸ ha.start_mem) hb.accept_mem
    last := by
      rw [outgoing_concat]
      exact List.map_eq_nil_iff.mpr hb.last
    through := (between_concat_right ha hb apart hb.accept_mem).trans (by rw [hb.through]; rfl)
    back := (between_concat_left ha hb apart ha.start_mem ha.start_ne).trans ha.back }

end Concat

theorem makes_concat (ha : graph.Holds a areaA p) (hb : graph.Holds b areaB q)
    (apart : Disjoint areaA areaB) :
    graph.Makes (areaA ∪ areaB) (graph.concat a b) (PatternAlgebra.passages.concat p q) :=
  ⟨(keeps_concat ha).mono Set.subset_union_left, _, Set.subset_union_left, holds_concat ha hb apart⟩

section Alternate
variable (ha : graph.Holds a areaA p) (hb : graph.Holds b areaB q)
include ha hb

/-- The start of an alternative, when it leads into both fragments. -/
theorem holds_entered :
    ((graph.addState.addState.addEpsilon graph.stateCount a.start).addEpsilon graph.stateCount b.start).Holds
      ⟨graph.stateCount, graph.stateCount + 1⟩
      (insert graph.stateCount (insert (graph.stateCount + 1) (areaA ∪ areaB))) ⟨0, 1⟩ ∧
    ∀ t ∈ areaA ∪ areaB,
      between ((graph.addState.addState.addEpsilon graph.stateCount a.start).addEpsilon
        graph.stateCount b.start).outgoing graph.stateCount t =
        between graph.outgoing a.start t + between graph.outgoing b.start t := by
  have within : ∀ t ∈ areaA ∪ areaB, t < graph.stateCount := by
    rintro t (ht | ht)
    · exact ha.within t ht
    · exact hb.within t ht
  have closed : Closed graph.outgoing (areaA ∪ areaB) := by
    rintro t (ht | ht) exit edge
    · exact .inl (ha.closed t ht exit edge)
    · exact .inr (hb.closed t ht exit edge)
  have startA : a.start ∈ areaA ∪ areaB := .inl ha.start_mem
  have startB : b.start ∈ areaA ∪ areaB := .inr hb.start_mem
  have noWay {t u : Nat} (ht : t ∈ areaA ∪ areaB) (hu : u ∈ graph.unused) :=
    between_new_eq_zero within closed ht hu
  have new := graph.holds_new within closed
  have entered := new.enter (.inr (.inr startA)) (noWay startA graph.mem_unused)
    (noWay startA graph.succ_mem_unused)
  -- the second edge finds the inside as the first one has found it
  have asBefore {t u : Nat} (ht : t ∈ areaA ∪ areaB) :
      between (graph.addState.addState.addEpsilon graph.stateCount a.start).outgoing t u =
        between graph.addState.addState.outgoing t u := by
    rw [between_entered within closed ht, outgoing_addState, outgoing_addState]
  have awayB := (asBefore startB).trans (noWay startB graph.mem_unused)
  refine ⟨entered.enter (.inr (.inr startB)) awayB
    ((asBefore startB).trans (noWay startB graph.succ_mem_unused)), ?_⟩
  intro t ht
  rw [entered.between_enter awayB, new.between_enter (noWay startA graph.mem_unused),
    between_entered within closed startB, between_stateCount within ht, zero_add, outgoing_addState,
    outgoing_addState]

/-- **Either fragment**: the new start leads into both, and both ends lead to the new one. -/
theorem makes_alternate (apart : Disjoint areaA areaB) :
    graph.Makes (areaA ∪ areaB) (graph.alternate a b) (PatternAlgebra.passages.alternate p q) := by
  obtain ⟨both, words⟩ := holds_entered ha hb
  have endA : a.accept ∈ areaA ∪ areaB := .inl ha.accept_mem
  have endB : b.accept ∈ areaA ∪ areaB := .inr hb.accept_mem
  have neA : a.accept ≠ graph.stateCount + 1 := Nat.ne_of_lt (Nat.lt_succ_of_lt ha.lt_accept)
  have neB : b.accept ≠ graph.stateCount + 1 := Nat.ne_of_lt (Nat.lt_succ_of_lt hb.lt_accept)
  -- only one of the fragments leads to each end
  have toA := words _ endA
  have toB := words _ endB
  rw [ha.through, hb.between_eq_zero hb.start_mem (Set.disjoint_left.mp apart ha.accept_mem), add_zero] at toA
  rw [hb.through, ha.between_eq_zero ha.start_mem (Set.disjoint_right.mp apart hb.accept_mem), zero_add] at toB
  have left := both.leave none (.inr (.inr endA)) neA toA
  have right := left.leave none (.inr (.inr endB)) neB ((both.between_leave (.inr (.inr endA)) neB).trans toB)
  rw [words_epsilon, mul_one, mul_one, zero_add] at right
  refine ⟨?_, _, insert_subset_union graph.mem_unused
    (insert_subset_union graph.succ_mem_unused Set.subset_union_left), right⟩
  exact ((((Keeps.refl.addState.addState.addEdge (.inr graph.mem_unused)).addEdge
    (.inr graph.mem_unused)).addEdge (.inl endA)).addEdge (.inl endB))

end Alternate

/-! An edge from the end of a fragment back to its start lets passes follow each other. -/

theorem words_loop (L : Language Char) : L + L * L∗ * L = L * L∗ := by
  conv_rhs => rw [← one_add_kstar_mul, mul_add, mul_one, ← mul_assoc]

section Star
variable (h : graph.Holds x area p)
include h

/-- The start of an iteration, when it leads to the end of a pass. -/
theorem holds_entered_accept :
    (graph.addState.addState.addEpsilon graph.stateCount x.accept).Holds
      ⟨graph.stateCount, graph.stateCount + 1⟩
      (insert graph.stateCount (insert (graph.stateCount + 1) area)) ⟨0, 1⟩ ∧
    between (graph.addState.addState.addEpsilon graph.stateCount x.accept).outgoing
      graph.stateCount x.accept = 1 ∧
    ∀ t, between (graph.addState.addState.addEpsilon graph.stateCount x.accept).outgoing x.start t =
      between graph.outgoing x.start t := by
  have new := graph.holds_new h.within h.closed
  have away := between_new_eq_zero h.within h.closed h.accept_mem graph.mem_unused
  have past := between_new_eq_zero h.within h.closed h.accept_mem graph.succ_mem_unused
  refine ⟨new.enter (.inr (.inr h.accept_mem)) away past, ?_, ?_⟩
  · rw [new.between_enter away, between_stateCount h.within h.accept_mem, outgoing_addState,
      outgoing_addState, between_self_of_eq_nil h.last, zero_add]
  · intro t
    exact between_entered h.within h.closed h.start_mem

/-- **Any number of passes**: the new start leads to the end of a pass, from where a pass may begin and the
new end be reached. -/
theorem makes_star : graph.Makes area (graph.star x) (PatternAlgebra.passages.star p) := by
  obtain ⟨entered, first, asBefore⟩ := holds_entered_accept h
  have ne : x.accept ≠ graph.stateCount + 1 := Nat.ne_of_lt (Nat.lt_succ_of_lt h.lt_accept)
  have bound := entered.within _ (.inr (.inr h.accept_mem))
  have noWay : ∀ u ∈ graph.unused, between graph.outgoing x.start u = 0 := fun u hu =>
    h.between_eq_zero h.start_mem fun hu' => Nat.not_lt.mpr hu (h.within u hu')
  -- the edge back to the start opens no way to the new states yet
  have loop := entered.addEdge (q := ⟨0, 1⟩) (v := x.start) (.inr (.inr h.accept_mem))
    (.inr (.inr h.start_mem)) ne
    ((between_addEpsilon_of_eq_zero bound (.inr ((asBefore _).trans (noWay _ graph.succ_mem_unused)))).trans
      entered.through)
    ((between_addEpsilon_of_eq_zero bound (.inr ((asBefore _).trans (noWay _ graph.mem_unused)))).trans
      entered.back)
  have passes := between_addEpsilon (s := graph.stateCount) (t := x.accept) (v := x.start) bound
  rw [first, asBefore, h.through, one_mul, one_add_kstar_mul] at passes
  have made := loop.leave none (.inr (.inr h.accept_mem)) ne passes
  rw [words_epsilon, mul_one, zero_add] at made
  refine ⟨?_, _, insert_subset_union graph.mem_unused
    (insert_subset_union graph.succ_mem_unused Set.subset_union_left), made⟩
  exact ((Keeps.refl.addState.addState.addEdge (.inr graph.mem_unused)).addEdge
    (.inl h.accept_mem)).addEdge (.inl h.accept_mem)

end Star

/-- A new end for a fragment. -/
theorem holds_new_accept (h : graph.Holds x area p) :
    graph.addState.Holds ⟨x.start, graph.stateCount⟩ (insert graph.stateCount area) ⟨0, p.back⟩ := by
  have last := outgoing_of_mem_unused graph.mem_unused
  refine {
    within := ?_
    closed := ?_
    start_mem := .inr h.start_mem
    accept_mem := .inl rfl
    start_ne := Nat.ne_of_lt h.lt_start
    last := ?_
    through := ?_
    back := ?_ }
  · rw [stateCount_addState]
    rintro s (rfl | hs)
    · omega
    · exact Nat.lt_succ_of_lt (h.within s hs)
  all_goals rw [outgoing_addState]
  · exact h.closed.insert last
  · exact last
  · exact h.between_eq_zero h.start_mem fun hs => Nat.lt_irrefl _ (h.within _ hs)
  · exact h.back

/-- **At least one pass**: from the end of a pass the next may begin, and the new end be reached. -/
theorem makes_plus (h : graph.Holds x area p) :
    graph.Makes area (graph.plus x) (PatternAlgebra.passages.plus p) := by
  have new := holds_new_accept h
  have ne : x.accept ≠ graph.stateCount := Nat.ne_of_lt h.lt_accept
  have bound := new.within _ (.inr h.accept_mem)
  have noWay : between graph.addState.outgoing x.start graph.stateCount = 0 := new.through
  -- both languages gain the rounds over the edge back
  have back := between_addEpsilon (s := x.start) (t := x.start) (v := x.start) bound
  have passes := between_addEpsilon (s := x.start) (t := x.accept) (v := x.start) bound
  rw [outgoing_addState, h.back, h.through, ← one_add_mul, one_add_mul_kstar] at back
  rw [outgoing_addState, h.through, words_loop] at passes
  have loop := new.addEdge (q := ⟨0, p.through∗ * p.back⟩) (v := x.start) (.inr h.accept_mem)
    (.inr h.start_mem) ne
    ((between_addEpsilon_of_eq_zero bound (.inr noWay)).trans noWay) back
  have made := loop.leave none (.inr h.accept_mem) ne passes
  rw [words_epsilon, mul_one, zero_add] at made
  refine ⟨?_, _, insert_subset_union graph.mem_unused Set.subset_union_left, made⟩
  exact (Keeps.refl.addState.addEdge (.inl h.accept_mem)).addEdge (.inl h.accept_mem)

/-- **A way past a fragment** may be taken whenever its start is reached. -/
theorem makes_optional (h : graph.Holds x area p) :
    graph.Makes area (graph.optional x) (PatternAlgebra.passages.optional p) := by
  have made := h.leave none h.start_mem h.start_ne h.back
  rw [words_epsilon, mul_one] at made
  exact ⟨Keeps.refl.addEdge (.inl h.start_mem), _, Set.subset_union_left, made⟩

end Operations
end Graph
end TableParsing
