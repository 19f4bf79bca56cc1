import TableParsing.Proofs.Nfa.Labels
import TableParsing.Proofs.Nfa.Thompson

/-! # No dead ends

A fragment is **live** when every state that can be entered from its start leads to its end.  Each operation makes a
live fragment of live ones: the states of its operands lead on from where they led to, and a new state is given an
edge.  A bent edge may leave an end behind, but nothing enters that end any more.

So every state of the automaton of a pattern leads to its one accepting state (`Nfa.exists_isTrim`): whatever can be
read is the front of a word. -/

namespace TableParsing
namespace Graph

variable {graph after : Graph} {area area' goals goals' : Set Nat} {a b x : Fragment} {p q : Passage} {s u v : Nat}
  {label : Option CharSet}

/-! ## Leading to goals -/

/-- No edge leads out of the area, and each state of it leads to one of the goals. -/
structure Reaches (graph : Graph) (area goals : Set Nat) : Prop where
  closed : Closed graph.outgoing area
  leads : ∀ s ∈ area, ∃ t ∈ goals, ∃ word, Walk graph.outgoing s word t

theorem mem_outgoing_addEdge_of_mem {exit : Exit} (h : exit ∈ graph.outgoing s) :
    exit ∈ (graph.addEdge u v label).outgoing s := by
  by_cases bound : u < graph.stateCount
  · exact (graph.mem_outgoing_addEdge bound s exit).mpr (.inl h)
  · by_cases hs : s = u
    · rw [graph.outgoing_of_le (by omega)] at h
      cases h
    · rwa [graph.outgoing_addEdge_of_ne hs]

namespace Reaches

theorem empty (graph : Graph) (goals : Set Nat) : graph.Reaches ∅ goals := ⟨closed_empty, fun _ hs => hs.elim⟩

variable (h : graph.Reaches area goals)
include h

theorem inter (closed : Closed graph.outgoing area') : graph.Reaches (area ∩ area') goals where
  closed s hs exit edge := ⟨h.closed s hs.1 exit edge, closed s hs.2 exit edge⟩
  leads s hs := h.leads s hs.1

theorem union (h' : graph.Reaches area' goals') : graph.Reaches (area ∪ area') (goals ∪ goals') where
  closed s hs exit edge := hs.imp (h.closed s · exit edge) (h'.closed s · exit edge)
  leads := by
    rintro s (hs | hs)
    · obtain ⟨t, ht, walk⟩ := h.leads s hs
      exact ⟨t, .inl ht, walk⟩
    · obtain ⟨t, ht, walk⟩ := h'.leads s hs
      exact ⟨t, .inr ht, walk⟩

/-- What matters is the edges of the area. -/
theorem congr (same : ∀ s ∈ area, after.outgoing s = graph.outgoing s) : after.Reaches area goals where
  closed s hs exit edge := h.closed s hs exit (same s hs ▸ edge)
  leads s hs := by
    obtain ⟨t, ht, word, walk⟩ := h.leads s hs
    refine ⟨t, ht, word, ?_⟩
    have walks := between_congr h.closed same hs (t := t)
    exact (walks ▸ walk : word ∈ between after.outgoing s t)

theorem addState : graph.addState.Reaches area goals :=
  h.congr fun s _ => congrFun graph.outgoing_addState s

/-- A goal that nothing leaves. -/
theorem insertGoal (last : graph.outgoing s = []) : graph.Reaches (insert s area) (insert s goals) where
  closed := h.closed.insert last
  leads := by
    rintro u (rfl | hu)
    · exact ⟨u, .inl rfl, [], .stay u⟩
    · obtain ⟨t, ht, walk⟩ := h.leads u hu
      exact ⟨t, .inr ht, walk⟩

/-- An edge into the area. -/
theorem addEdge (hv : v ∈ area) : (graph.addEdge u v label).Reaches area goals where
  closed s hs exit edge := by
    rcases of_mem_outgoing_addEdge edge with edge | rfl
    · exact h.closed s hs exit edge
    · exact hv
  leads s hs := by
    obtain ⟨t, ht, word, walk⟩ := h.leads s hs
    exact ⟨t, ht, word, between_mono (fun s exit edge => mem_outgoing_addEdge_of_mem edge) walk⟩

theorem addEpsilon (u : Nat) (hv : v ∈ area) : (graph.addEpsilon u v).Reaches area goals := h.addEdge hv

/-- An edge into the area from a state that nothing has left yet. -/
theorem enter (first : graph.outgoing s = []) (bound : s < graph.stateCount) (hv : v ∈ area)
    (takes : ∃ word, word ∈ Exit.words ⟨v, label⟩) :
    (graph.addEdge s v label).Reaches (insert s area) goals := by
  have added : (graph.addEdge s v label).Reaches area goals := h.addEdge hv
  refine ⟨?_, ?_⟩
  · rintro u (rfl | hu) exit edge
    · rcases of_mem_outgoing_addEdge edge with edge | rfl
      · rw [first] at edge
        cases edge
      · exact .inr hv
    · exact .inr (added.closed u hu exit edge)
  · rintro u (rfl | hu)
    · obtain ⟨t, ht, word, walk⟩ := added.leads v hv
      obtain ⟨front, hfront⟩ := takes
      have edge := (graph.mem_outgoing_addEdge bound u ⟨v, label⟩).mpr (.inr ⟨rfl, rfl⟩)
      exact ⟨t, ht, front ++ word, .along edge hfront walk⟩
    · exact added.leads u hu

/-- An edge from one goal to another: the first need no longer be one. -/
theorem leave (u : Nat) (goals' : Set Nat) (bound : u < graph.stateCount) (hv : v ∈ area) (goal : v ∈ goals')
    (others : ∀ t ∈ goals, t = u ∨ t ∈ goals') : (graph.addEpsilon u v).Reaches area goals' := by
  have added : (graph.addEpsilon u v).Reaches area goals := h.addEpsilon u hv
  refine ⟨added.closed, fun s hs => ?_⟩
  obtain ⟨t, ht, word, walk⟩ := added.leads s hs
  rcases others t ht with rfl | ht
  · have edge : ⟨v, none⟩ ∈ (graph.addEpsilon t v).outgoing t :=
      (graph.mem_outgoing_addEdge bound t _).mpr (.inr ⟨rfl, rfl⟩)
    exact ⟨v, goal, word ++ [], walk.append (.skip edge (.stay v))⟩
  · exact ⟨t, ht, word, walk⟩

end Reaches

/-! ## Live fragments -/

/-- Every state that can be entered from the start leads to the end. -/
def Live (graph : Graph) (x : Fragment) : Prop := ∃ area, x.start ∈ area ∧ graph.Reaches area {x.accept}

/-- The states in question lie in the area of the fragment. -/
theorem Live.inside (live : graph.Live x) (h : graph.Holds x area p) :
    ∃ inner ⊆ area, x.start ∈ inner ∧ graph.Reaches inner {x.accept} := by
  obtain ⟨entered, start, reaches⟩ := live
  exact ⟨_, Set.inter_subset_right, ⟨start, h.start_mem⟩, reaches.inter h.closed⟩

/-- The end is one of the states that are entered. -/
theorem Reaches.accept_mem (h : graph.Reaches area {x.accept}) (start : x.start ∈ area) : x.accept ∈ area := by
  obtain ⟨_, rfl, word, walk⟩ := h.leads x.start start
  exact h.closed.mem start walk

/-- **Frame**: what happens elsewhere does not matter to a live fragment. -/
theorem Live.frame (live : graph.Live x) (h : graph.Holds x area p) (keeps : graph.Keeps after area')
    (apart : Disjoint area' area) : after.Live x := by
  obtain ⟨inner, sub, start, reaches⟩ := live.inside h
  refine ⟨inner, start, reaches.congr fun s hs => ?_⟩
  exact keeps.same area h.within h.closed apart s (sub hs)

theorem Laid.live_frame {taken : Set Nat} {stack : List Fragment} {ps : List Passage} (h : graph.Laid taken stack ps)
    (keeps : graph.Keeps after taken) (live : ∀ x ∈ stack, graph.Live x) : ∀ x ∈ stack, after.Live x := by
  intro x hx
  obtain ⟨area, p, holds, apart⟩ := h.exists_holds hx
  exact (live x hx).frame holds keeps apart

/-! ## The operations -/

/-- Two new states, the second of them a goal. -/
theorem Reaches.addStates (h : graph.Reaches area goals) :
    graph.addState.addState.Reaches (insert (graph.stateCount + 1) area) (insert (graph.stateCount + 1) goals) ∧
      graph.addState.addState.outgoing graph.stateCount = [] ∧
      graph.addState.addState.stateCount = graph.stateCount + 2 := by
  have same : graph.addState.addState.outgoing = graph.outgoing := by rw [outgoing_addState, outgoing_addState]
  refine ⟨h.addState.addState.insertGoal ?_, ?_, by rw [stateCount_addState, stateCount_addState]⟩
  · rw [same, graph.outgoing_of_le (Nat.le_succ _)]
  · rw [same, graph.outgoing_of_le (Nat.le_refl _)]

theorem live_accept {set : CharSet} (hset : set.IsLabel) : (graph.accept set).1.Live (graph.accept set).2 := by
  obtain ⟨c, hc⟩ := hset.exists_mem
  obtain ⟨goal, first, count⟩ := (Reaches.empty graph ∅).addStates
  rw [insert_empty_eq] at goal
  have takes : ∃ word, word ∈ Exit.words ⟨graph.stateCount + 1, some set⟩ :=
    ⟨[c], c, CharSet.contains_iff.mpr hc, rfl⟩
  exact ⟨_, .inl rfl, goal.enter first (by omega) rfl takes⟩

/-- An edge that reads nothing can be taken. -/
theorem exists_mem_words_epsilon : ∃ word, word ∈ Exit.words ⟨v, none⟩ := ⟨[], rfl⟩

section Two
variable (ha : graph.Holds a area p) (hb : graph.Holds b area' q) (liveA : graph.Live a) (liveB : graph.Live b)
include ha hb liveA liveB

/-- The states of the first fragment lead on from the start of the second. -/
theorem live_concat (apart : Disjoint area area') : (graph.concat a b).1.Live (graph.concat a b).2 := by
  obtain ⟨innerA, subA, startA, reachesA⟩ := liveA.inside ha
  obtain ⟨innerB, subB, startB, reachesB⟩ := liveB.inside hb
  have apart := Set.disjoint_left.mp apart
  have end_ne : b.accept ≠ a.accept := fun same => apart ha.accept_mem (same ▸ hb.accept_mem)
  -- the end of the first fragment is left behind
  have inner_ne : ∀ s ∈ innerB, s ≠ a.accept := fun s hs same => apart ha.accept_mem (same ▸ subB hs)
  have words : ∀ s, s ≠ a.accept → between (graph.concat a b).1.outgoing s b.accept = _ := fun s hs =>
    between_concat ha hb (Set.disjoint_left.mpr apart) hs end_ne
  obtain ⟨_, rfl, wordB, walkB⟩ := reachesB.leads b.start startB
  refine ⟨(innerA \ {a.accept}) ∪ innerB, .inl ⟨startA, ha.start_ne⟩, ?_, ?_⟩
  · intro s hs exit edge
    rw [outgoing_concat] at edge
    obtain ⟨exit', edge', rfl⟩ := List.mem_map.mp edge
    rw [Exit.retarget]
    by_cases bent : exit'.target = a.accept
    · rw [if_pos bent]
      exact .inr startB
    · rw [if_neg bent]
      exact hs.imp (fun hs => ⟨reachesA.closed s hs.1 exit' edge', bent⟩) (reachesB.closed s · exit' edge')
  · rintro s (⟨hs, ne⟩ | hs)
    · obtain ⟨_, rfl, word, walk⟩ := reachesA.leads s hs
      refine ⟨b.accept, rfl, word ++ wordB, ?_⟩
      have both : word ++ wordB ∈ between (graph.concat a b).1.outgoing s b.accept := by
        rw [words s ne]
        exact .inr ⟨word, walk, wordB, walkB, rfl⟩
      exact both
    · obtain ⟨_, rfl, word, walk⟩ := reachesB.leads s hs
      refine ⟨b.accept, rfl, word, ?_⟩
      have here : word ∈ between (graph.concat a b).1.outgoing s b.accept := by
        rw [words s (inner_ne s hs)]
        exact .inl walk
      exact here

theorem live_alternate : (graph.alternate a b).1.Live (graph.alternate a b).2 := by
  obtain ⟨innerA, -, startA, reachesA⟩ := liveA.inside ha
  obtain ⟨innerB, -, startB, reachesB⟩ := liveB.inside hb
  have ltA := ha.lt_accept
  have ltB := hb.lt_accept
  obtain ⟨both, first, count⟩ := (reachesA.union reachesB).addStates
  have enteredA := both.enter first (by omega) (.inr (.inl startA)) exists_mem_words_epsilon
  have enteredB := enteredA.addEpsilon graph.stateCount (.inr (.inr (.inr startB)))
  -- one end after the other is given the edge to the new end
  have leftA := enteredB.leave a.accept {graph.stateCount + 1, b.accept}
    (by simp only [stateCount_addEpsilon, stateCount_addEdge, count]; omega) (.inr (.inl rfl)) (.inl rfl) (by
      rintro t (rfl | rfl | rfl)
      · exact .inr (.inl rfl)
      · exact .inl rfl
      · exact .inr (.inr rfl))
  have leftB := leftA.leave b.accept {graph.stateCount + 1}
    (by simp only [stateCount_addEpsilon, stateCount_addEdge, count]; omega)
    (.inr (.inl rfl)) rfl (by
      rintro t (rfl | rfl)
      · exact .inr rfl
      · exact .inl rfl)
  exact ⟨_, .inl rfl, leftB⟩

end Two

section One
variable (h : graph.Holds x area p) (live : graph.Live x)
include h live

theorem live_star : (graph.star x).1.Live (graph.star x).2 := by
  obtain ⟨inner, -, start, reaches⟩ := live.inside h
  have lt := h.lt_accept
  obtain ⟨pass, first, count⟩ := reaches.addStates
  have entered := pass.enter first (by omega) (.inr (reaches.accept_mem start)) exists_mem_words_epsilon
  have again := entered.addEpsilon x.accept (.inr (.inr start))
  have left := again.leave x.accept {graph.stateCount + 1}
    (by simp only [stateCount_addEpsilon, stateCount_addEdge, count]; omega) (.inr (.inl rfl)) rfl (by
      rintro t (rfl | rfl)
      · exact .inr rfl
      · exact .inl rfl)
  exact ⟨_, .inl rfl, left⟩

theorem live_plus : (graph.plus x).1.Live (graph.plus x).2 := by
  obtain ⟨inner, -, start, reaches⟩ := live.inside h
  have lt := h.lt_accept
  have last : graph.addState.outgoing graph.stateCount = [] := by
    rw [outgoing_addState, graph.outgoing_of_le (Nat.le_refl _)]
  have again := (reaches.addState.insertGoal last).addEpsilon x.accept (.inr start)
  have left := again.leave x.accept {graph.stateCount}
    (by rw [stateCount_addEpsilon, stateCount_addState]; omega) (.inl rfl) rfl (by
      rintro t (rfl | rfl)
      · exact .inr rfl
      · exact .inl rfl)
  exact ⟨_, .inr start, left⟩

theorem live_optional : (graph.optional x).1.Live (graph.optional x).2 := by
  obtain ⟨inner, -, start, reaches⟩ := live.inside h
  exact ⟨inner, start, reaches.addEdge (reaches.accept_mem start)⟩

theorem live_copy : (graph.copy x).1.Live (graph.copy x).2 := by
  obtain ⟨entered, start, reaches⟩ := live
  have found := reaches.inter (closed_reachable h)
  have original : x.start ∈ entered ∩ {s | s ∈ (graph.reachable x.start).toList} := ⟨start, start_mem_reachable⟩
  have copy : (graph.copy x).2.start = graph.copied x x.start := by
    rw [copied, numberOf_start, Nat.add_zero]
    rfl
  have edges : ∀ s ∈ entered ∩ {s | s ∈ (graph.reachable x.start).toList}, ∀ exit', _ := fun s hs exit' =>
    mem_outgoing_copied h (.inl hs.2) exit'
  refine ⟨graph.copied x '' (entered ∩ {s | s ∈ (graph.reachable x.start).toList}), ⟨_, original, copy.symm⟩, ?_, ?_⟩
  · rintro _ ⟨s, hs, rfl⟩ exit' edge'
    obtain ⟨exit, edge, rfl⟩ := (edges s hs exit').mp edge'
    exact ⟨exit.target, found.closed s hs exit edge, rfl⟩
  · rintro _ ⟨s, hs, rfl⟩
    obtain ⟨_, rfl, word, walk⟩ := found.leads s hs
    exact ⟨_, rfl, word, walk.map found.closed (fun s hs exit edge => (edges s hs _).mpr ⟨exit, edge, rfl⟩) hs⟩

theorem live_copies (n : Nat) : ∀ y ∈ (graph.copies x n).2, (graph.copies x n).1.Live y := by
  induction n generalizing graph with
  | zero => nofun
  | succ n ih =>
    obtain ⟨keeps, first, -, holds⟩ := makes_copy h
    have apart := Set.empty_disjoint (α := Nat)
    obtain ⟨keeps', -⟩ := laid_copies (h.frame keeps (apart _)) n
    refine List.forall_mem_cons.mpr ⟨?_, ih (h.frame keeps (apart _)) (live.frame h keeps (apart _))⟩
    exact (live_copy h live).frame holds keeps' (apart _)

end One

theorem live_chain {rest : List Fragment} {ps : List Passage} (h : graph.Holds a area p) (live : graph.Live a)
    (laid : graph.Laid area rest ps) (lives : ∀ x ∈ rest, graph.Live x) :
    (graph.chain a rest).1.Live (graph.chain a rest).2 := by
  induction rest generalizing graph a area p ps with
  | nil => exact live
  | cons next rest ih =>
    obtain ⟨first, others⟩ := List.forall_mem_cons.mp lives
    cases laid with
    | cons holds apart laid =>
      have keeps := keeps_concat (b := next) h
      exact ih (holds_concat h holds apart) (live_concat h holds live first apart)
        (laid.frame (keeps.mono Set.subset_union_left) Set.subset_union_left)
        (laid.live_frame (keeps.mono Set.subset_union_left) others)

/-- Edges to the end make no dead ends. -/
theorem live_skips {copies : List Fragment} (live : graph.Live x) :
    (copies.foldl (fun graph c => graph.addEpsilon c.start x.accept) graph).Live x := by
  obtain ⟨inner, start, reaches⟩ := live
  refine ⟨inner, start, ?_⟩
  induction copies generalizing graph with
  | nil => exact reaches
  | cons c copies ih => exact ih (reaches.addEdge (reaches.accept_mem start))

section Repeat
variable (h : graph.Holds x area p) (live : graph.Live x)
include h live

theorem live_repeatBounded (min max : Nat) :
    (graph.repeatBounded x min max).1.Live (graph.repeatBounded x min max).2 := by
  obtain ⟨keeps, laid⟩ := laid_copies h (Nat.max max min - 1)
  have beside := laid.mono fun s hs => .inl (h.within s hs)
  exact live_skips (live_chain (h.frame keeps (Set.empty_disjoint _)) (live.frame h keeps (Set.empty_disjoint _))
    beside (live_copies h live _))

theorem live_repeat (min : Nat) (max : Option Nat) : (graph.repeat x min max).1.Live (graph.repeat x min max).2 := by
  cases max with
  | some max => exact live_repeatBounded h live min max
  | none =>
    cases min with
    | zero => exact live_star h live
    | succ min =>
      obtain ⟨_, _, _, copy⟩ := makes_copy h
      obtain ⟨areaH, areaT, keepsTail, keepsHead, -, -, head, tail, apart, disjoint⟩ := exists_parts h (min + 1)
      have outside := Set.empty_disjoint area
      have liveTail := (live_star copy (live_copy h live)).frame tail keepsHead apart
      have liveHead := live_repeatBounded (h.frame keepsTail outside) (live.frame h keepsTail outside) (min + 1) (min + 1)
      exact live_concat head (tail.frame keepsHead apart) liveHead liveTail disjoint

end Repeat

/-! ## Runs -/

/-- What is made of live fragments goes on top of the others. -/
theorem Laid.live_push {taken : Set Nat} {stack : List Fragment} {ps : List Passage} {result : Graph × Fragment}
    (laid : graph.Laid taken stack ps) (made : graph.Makes area result p) (sub : area ⊆ taken)
    (live : ∀ x ∈ stack, graph.Live x) (top : result.1.Live result.2) :
    ∀ x ∈ result.2 :: stack, result.1.Live x :=
  List.forall_mem_cons.mpr ⟨top, laid.live_frame (made.keeps.mono sub) live⟩

/-- **A step** makes live fragments of live ones. -/
theorem live_perform? {stack : List Fragment} {ps : List Passage} {op : PatternOp} {result : Graph × List Fragment}
    (h : graph.Laid ∅ stack ps) (live : ∀ x ∈ stack, graph.Live x) (labels : ∀ set, op = .accept set → set.IsLabel)
    (performed : graph.perform? stack op = some result) : ∀ x ∈ result.2, result.1.Live x := by
  have covered {s t : Set Nat} : s ∪ t ⊆ ∅ ∪ t ∪ s := by
    rw [Set.empty_union, Set.union_comm]
  cases op with
  | accept set =>
    cases performed
    exact h.live_push (makes_accept set) (Set.Subset.refl _) live (live_accept (labels set rfl))
  | concat =>
    rcases h with _ | ⟨hb, _, _ | ⟨ha, apart, rest⟩⟩ <;> cases performed
    obtain ⟨liveB, liveA, others⟩ := by simpa only [List.forall_mem_cons] using live
    have apart := (apart.mono_left Set.subset_union_right).symm
    exact rest.live_push (makes_concat ha hb apart) covered others (live_concat ha hb liveA liveB apart)
  | alternate =>
    rcases h with _ | ⟨hb, _, _ | ⟨ha, apart, rest⟩⟩ <;> cases performed
    obtain ⟨liveB, liveA, others⟩ := by simpa only [List.forall_mem_cons] using live
    have apart := (apart.mono_left Set.subset_union_right).symm
    exact rest.live_push (makes_alternate ha hb apart) covered others (live_alternate ha hb liveA liveB)
  | star =>
    rcases h with _ | ⟨hx, _, rest⟩ <;> cases performed
    obtain ⟨top, others⟩ := List.forall_mem_cons.mp live
    exact rest.live_push (makes_star hx) Set.subset_union_right others (live_star hx top)
  | plus =>
    rcases h with _ | ⟨hx, _, rest⟩ <;> cases performed
    obtain ⟨top, others⟩ := List.forall_mem_cons.mp live
    exact rest.live_push (makes_plus hx) Set.subset_union_right others (live_plus hx top)
  | optional =>
    rcases h with _ | ⟨hx, _, rest⟩ <;> cases performed
    obtain ⟨top, others⟩ := List.forall_mem_cons.mp live
    exact rest.live_push (makes_optional hx) Set.subset_union_right others (live_optional hx top)
  | «repeat» min max =>
    rcases h with _ | ⟨hx, _, rest⟩ <;> cases performed
    obtain ⟨top, others⟩ := List.forall_mem_cons.mp live
    exact rest.live_push (makes_repeat hx min max) Set.subset_union_right others (live_repeat hx top min max)

/-- **A run** of operations makes live fragments of live ones. -/
theorem live_foldlM {ops : List PatternOp} {stack : List Fragment} {ps : List Passage}
    {result : Graph × List Fragment} (h : graph.Laid ∅ stack ps) (live : ∀ x ∈ stack, graph.Live x)
    (labels : ∀ set, .accept set ∈ ops → set.IsLabel)
    (performed : ops.foldlM (fun (graph, stack) op => graph.perform? stack op) (graph, stack) = some result) :
    ∀ x ∈ result.2, result.1.Live x := by
  induction ops generalizing graph stack ps with
  | nil =>
    cases performed
    exact live
  | cons op ops ih =>
    rw [List.foldlM_cons] at performed
    obtain ⟨after, first, rest⟩ := Option.bind_eq_some_iff.mp performed
    change graph.perform? stack op = some after at first
    obtain ⟨qs, laid⟩ := exists_laid_of_perform? h first
    refine ih laid (live_perform? h live (fun set same => labels set ?_) first) (fun set hset => labels set ?_) rest
    · exact same ▸ List.mem_cons_self
    · exact List.mem_cons_of_mem _ hset

/-- **A live fragment becomes an automaton without dead ends**, with one accepting state. -/
theorem exists_accept_finish (h : graph.Holds x area p) (live : graph.Live x) :
    ∃ accept < (graph.finish x).stateCount, (graph.finish x).accepts = [accept] ∧
      ∀ s < (graph.finish x).stateCount, ∃ word, Walk (graph.finish x).exits s word accept := by
  obtain ⟨entered, start, reaches⟩ := live
  have found := reaches.inter (closed_reachable h)
  have accept : x.accept ∈ (graph.reachable x.start).toList :=
    (found.accept_mem ⟨start, start_mem_reachable⟩).2
  have all : ∀ s ∈ (graph.reachable x.start).toList, s ∈ entered := by
    refine fun s hs => of_mem_discover (P := (· ∈ entered)) (fun a ha b hb => ?_)
      (fun a ha => List.mem_singleton.mp ha ▸ start) hs
    obtain ⟨exit, edge, rfl⟩ := List.mem_map.mp hb
    exact reaches.closed a ha exit edge
  refine ⟨(graph.reachable x.start).numberOf x.accept, Numbering.numberOf_lt _ accept, ?_, ?_⟩
  · rw [finish, (Numbering.number?_eq_some_iff _).mpr (Numbering.getElem?_numberOf _ accept)]
    rfl
  · intro s hs
    have original := Array.getElem?_eq_getElem hs
    have mem := (Numbering.mem_toList_iff _).mpr ⟨s, original⟩
    obtain ⟨_, rfl, word, walk⟩ := found.leads _ ⟨all _ mem, mem⟩
    rw [← Numbering.numberOf_eq _ original]
    exact ⟨word, walk.map found.closed (fun s hs exit edge => (mem_exits_finish hs.2 _).mpr ⟨exit, edge, rfl⟩)
      ⟨all _ mem, mem⟩⟩

end Graph

namespace Nfa

/-- What holds of the automaton of a pattern: every state leads to the one that accepts. -/
structure IsTrim (nfa : Nfa) (accept : Nat) : Prop where
  closed : nfa.IsClosed
  labelled : nfa.IsLabelled
  accept_lt : accept < nfa.stateCount
  accepts : nfa.accepts = [accept]
  leads : ∀ s < nfa.stateCount, ∃ word, Walk nfa.exits s word accept

theorem exists_isTrim_of_ofOperations? {ops : List PatternOp} {nfa : Nfa}
    (labels : ∀ set, .accept set ∈ ops → set.IsLabel) (h : ofOperations? ops = some nfa) :
    ∃ accept, nfa.IsTrim accept := by
  obtain ⟨⟨graph, stack⟩, run, h⟩ := Option.bind_eq_some_iff.mp h
  have none : Graph.empty.Laid ∅ [] [] := .nil
  have rel := Graph.rel_foldlM none ops
  rw [run] at rel
  generalize ops.foldlM PatternAlgebra.passages.perform? [] = passages at rel
  cases rel with
  | some laid =>
    have live := Graph.live_foldlM none (fun _ h => absurd h List.not_mem_nil) labels run
    have labelled := Graph.isLabelled_empty.foldlM labels run
    rcases laid with _ | ⟨holds, _, _ | _⟩
    · cases h
    · cases h
      obtain ⟨accept, lt, accepts, leads⟩ := Graph.exists_accept_finish holds (live _ List.mem_cons_self)
      exact ⟨accept, Graph.isClosed_finish holds, isLabelled_finish labelled, lt, accepts, leads⟩
    · cases h

/-- **The automaton of a pattern has no dead ends.** -/
theorem exists_isTrim {pattern : String} {nfa : Nfa} (h : Nfa.ofPattern pattern = .ok nfa) :
    ∃ accept, nfa.IsTrim accept := by
  obtain ⟨ops, hops, h⟩ := Except.bind_eq_ok_iff.mp h
  cases found : ofOperations? ops with
  | none =>
    rw [found] at h
    cases h
  | some made =>
    rw [found] at h
    cases h
    exact exists_isTrim_of_ofOperations? (fun set hset => isLabel_of_mem_ofPattern hops hset) found

end Nfa
end TableParsing
