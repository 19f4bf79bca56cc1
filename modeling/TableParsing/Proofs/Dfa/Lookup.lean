import TableParsing.Dfa.Basic
import TableParsing.Proofs.Bisection
import TableParsing.Proofs.CharSet.Basic

/-! # Edges are found

The edges of a state are **separate** when their labels are well formed and share no character.  Then reading a
character leads along the one edge whose label has it (`target?_eq_some_iff`): the ranges of all labels ascend once they
are sorted, so bisection comes to the one that may have the character.

Edges stay separate when a range is added that has no character of theirs, so a state that is built range by range leads
where its ranges say (`extends_addEdges`).  Starting from no edges, it leads nowhere else (`routes_addEdges`). -/

namespace TableParsing
namespace Dfa.State

variable {edges : List (CharSet × Nat)} {pairs : List (CharRange × Nat)} {r : CharRange} {c : Char} {t target : Nat}

/-- Whether an edge with the character leads to `t`. -/
def Leads (edges : List (CharSet × Nat)) (c : Char) (t : Nat) : Prop := ∃ label, (label, t) ∈ edges ∧ c ∈ label

/-- Edges with well-formed labels that share no character. -/
structure Separate (edges : List (CharSet × Nat)) : Prop where
  wellFormed : ∀ e ∈ edges, e.1.WellFormed
  disjoint : edges.Pairwise fun a b => ∀ c ∈ a.1, c ∉ b.1

/-! ## Look-up tables -/

theorem search_eq_some_iff {table : Array (CharRange × Nat)}
    (ascending : table.toList.Pairwise fun a b => a.1.Before b.1) :
    search table c = some t ↔ ∃ r, (r, t) ∈ table ∧ c ∈ r := by
  have front : table.toList.Pairwise fun a b => decide (b.1.hi < c) = true → decide (a.1.hi < c) = true := by
    refine ascending.imp fun {a b} before pass => decide_eq_true ?_
    exact (before.trans_le b.1.lo_le_hi).trans (of_decide_eq_true pass)
  have passes := lt_bisect_iff front
  rw [search]
  generalize bisect (fun entry : CharRange × Nat => decide (entry.1.hi < c)) table = k at passes
  constructor
  · intro h
    obtain ⟨⟨r, t'⟩, hk, h⟩ := Option.bind_eq_some_iff.mp h
    obtain ⟨hc, same⟩ := Option.ite_none_right_eq_some.mp h
    cases same
    exact ⟨r, Array.mem_of_getElem? hk, CharRange.contains_iff.mp hc⟩
  · rintro ⟨r, hr, hc⟩
    obtain ⟨j, hj, entry⟩ := Array.mem_iff_getElem.mp hr
    have le : k ≤ j := by
      refine Nat.le_of_not_lt fun lt => ?_
      have pass := (passes j).mp lt
      rw [Array.getElem?_eq_getElem hj, entry] at pass
      exact absurd (of_decide_eq_true pass) (not_lt.mpr hc.2)
    -- an entry in front of it passes, so the first that does not is no earlier one
    have same : k = j := by
      refine Nat.le_antisymm le (Nat.le_of_not_lt fun lt => ?_)
      have hk : k < table.size := by omega
      have before : table[k].1.Before r := by
        have before := List.pairwise_iff_getElem.mp ascending k j hk hj lt
        rwa [Array.getElem_toList, Array.getElem_toList, entry] at before
      refine Nat.lt_irrefl k ((passes k).mpr ?_)
      rw [Array.getElem?_eq_getElem hk]
      exact decide_eq_true (before.trans_le hc.1)
    rw [same, Array.getElem?_eq_getElem hj, entry]
    exact if_pos (CharRange.contains_iff.mpr hc)

/-- The ranges of all labels with their targets. -/
def entries (edges : List (CharSet × Nat)) : List (CharRange × Nat) :=
  edges.flatMap fun e => e.1.ranges.map (·, e.2)

theorem lookup_eq (state : Dfa.State) :
    state.lookup = ((entries state.edges).mergeSort fun a b => a.1.lo ≤ b.1.lo).toArray := rfl

theorem mem_entries : (r, t) ∈ entries edges ↔ ∃ label, (label, t) ∈ edges ∧ r ∈ label.ranges := by
  rw [entries, List.mem_flatMap]
  constructor
  · rintro ⟨e, he, hr⟩
    obtain ⟨r', inside, same⟩ := List.mem_map.mp hr
    cases same
    exact ⟨e.1, he, inside⟩
  · rintro ⟨label, he, hr⟩
    exact ⟨(label, t), he, List.mem_map.mpr ⟨r, hr, rfl⟩⟩

theorem leads_iff_entries : Leads edges c t ↔ ∃ r, (r, t) ∈ entries edges ∧ c ∈ r := by
  simp only [mem_entries]
  constructor
  · rintro ⟨label, he, r, hr, hc⟩
    exact ⟨r, ⟨label, he, hr⟩, hc⟩
  · rintro ⟨r, ⟨label, he, hr⟩, hc⟩
    exact ⟨label, he, r, hr, hc⟩

theorem Separate.entries_apart (h : Separate edges) : (entries edges).Pairwise fun a b => a.1.Apart b.1 := by
  refine List.pairwise_flatMap.mpr ⟨fun e he => ?_, h.disjoint.imp fun {a b} disjoint p hp q hq => ?_⟩
  · exact List.pairwise_map.mpr ((h.wellFormed e he).imp CharRange.Before.apart)
  · obtain ⟨r, hr, rfl⟩ := List.mem_map.mp hp
    obtain ⟨s, hs, rfl⟩ := List.mem_map.mp hq
    exact fun c hcr hcs => disjoint c ⟨r, hr, hcr⟩ ⟨s, hs, hcs⟩

/-- Ranges that share no character come one before the other when they are sorted. -/
theorem ascending_lookup {state : Dfa.State} (h : Separate state.edges) :
    state.lookup.toList.Pairwise fun a b => a.1.Before b.1 := by
  have sorted : ((entries state.edges).mergeSort fun a b => a.1.lo ≤ b.1.lo).Pairwise
      fun a b => decide (a.1.lo ≤ b.1.lo) = true :=
    List.pairwise_mergeSort (fun _ _ _ h h' => decide_eq_true ((of_decide_eq_true h).trans (of_decide_eq_true h')))
      (fun a b => by simpa using le_total a.1.lo b.1.lo) _
  have apart : ((entries state.edges).mergeSort fun a b => a.1.lo ≤ b.1.lo).Pairwise fun a b => a.1.Apart b.1 :=
    ((List.mergeSort_perm _ _).pairwise_iff fun h => symm h).mpr h.entries_apart
  rw [lookup_eq, List.toList_toArray]
  refine sorted.imp₂ (fun a b le apart => ?_) apart
  have le : a.1.lo ≤ b.1.lo := of_decide_eq_true le
  exact not_le.mp fun overlap => apart b.1.lo ⟨le, overlap⟩ b.1.lo_mem

/-- **Reading a character leads along the edge that has it.** -/
theorem target?_eq_some_iff {state : Dfa.State} (h : Separate state.edges) :
    state.target? c = some t ↔ Leads state.edges c t := by
  rw [target?, search_eq_some_iff (ascending_lookup h), leads_iff_entries]
  simp only [lookup_eq, List.mem_toArray, List.mem_mergeSort]

/-! ## States that are built -/

theorem leads_cons {label : CharSet} :
    Leads ((label, target) :: edges) c t ↔ t = target ∧ c ∈ label ∨ Leads edges c t := by
  simp only [Leads, List.mem_cons, Prod.mk.injEq, or_and_right, exists_or, and_assoc, exists_eq_left]

theorem not_leads_nil : ¬Leads [] c t := by
  rintro ⟨label, edge, -⟩
  cases edge

theorem separate_nil : Separate [] := ⟨fun _ edge => absurd edge List.not_mem_nil, .nil⟩

/-- A range is added to the characters that lead to its target. -/
theorem leads_extendEdges : Leads (extendEdges edges r target) c t ↔ t = target ∧ c ∈ r ∨ Leads edges c t := by
  induction edges with
  | nil => simp [extendEdges, Leads]
  | cons e edges ih =>
    obtain ⟨label, t'⟩ := e
    rw [extendEdges]
    split
    · rename_i same
      rw [leads_cons, leads_cons, CharSet.mem_insert, same]
      tauto
    · rw [leads_cons, ih, leads_cons]
      tauto

theorem Separate.extendEdges (h : Separate edges) (apart : ∀ c ∈ r, ∀ t, ¬Leads edges c t) :
    Separate (extendEdges edges r target) := by
  induction edges with
  | nil =>
    exact ⟨fun e he => List.mem_singleton.mp he ▸ CharSet.wellFormed_empty.insert r, List.pairwise_singleton ..⟩
  | cons e edges ih =>
    obtain ⟨label, t'⟩ := e
    obtain ⟨first, disjoint⟩ := List.pairwise_cons.mp h.disjoint
    obtain ⟨wellFormed, others⟩ := List.forall_mem_cons.mp h.wellFormed
    have apart' : ∀ c ∈ r, c ∉ label ∧ ∀ t, ¬Leads edges c t := fun c hc =>
      ⟨fun hl => apart c hc t' (leads_cons.mpr (.inl ⟨rfl, hl⟩)), fun t ht => apart c hc t (leads_cons.mpr (.inr ht))⟩
    rw [State.extendEdges]
    split
    · refine ⟨List.forall_mem_cons.mpr ⟨wellFormed.insert r, others⟩, List.pairwise_cons.mpr ⟨?_, disjoint⟩⟩
      intro e he c hc hce
      rcases CharSet.mem_insert.mp hc with hc | hc
      · exact (apart' c hc).2 e.2 ⟨e.1, he, hce⟩
      · exact first e he c hc hce
    · have rest := ih ⟨others, disjoint⟩ fun c hc => (apart' c hc).2
      refine ⟨List.forall_mem_cons.mpr ⟨wellFormed, rest.wellFormed⟩, List.pairwise_cons.mpr ⟨?_, rest.disjoint⟩⟩
      intro e he c hc hce
      rcases leads_extendEdges.mp ⟨e.1, he, hce⟩ with ⟨-, hr⟩ | ⟨label', he', hc'⟩
      · exact (apart' c hr).1 hc
      · exact first _ he' c hc hc'

/-- The state with an edge over each of some ranges. -/
def addEdges (state : Dfa.State) (pairs : List (CharRange × Nat)) : Dfa.State :=
  pairs.foldl (fun state (r, target) => state.addEdge r target) state

/-- What edges over some ranges make of a state. -/
structure Extends (before : Dfa.State) (pairs : List (CharRange × Nat)) (after : Dfa.State) : Prop where
  members_eq : after.members = before.members
  verdict_eq : after.verdict = before.verdict
  separate : Separate after.edges
  leads_iff : ∀ c t, Leads after.edges c t ↔ Leads before.edges c t ∨ ∃ p ∈ pairs, p.2 = t ∧ c ∈ p.1

/-- **Ranges that share no character lead where they say**, and the edges from before lead where they led. -/
theorem extends_addEdges {state : Dfa.State} (h : Separate state.edges)
    (apart : pairs.Pairwise fun a b => a.1.Apart b.1)
    (new : ∀ p ∈ pairs, ∀ c ∈ p.1, ∀ t, ¬Leads state.edges c t) : state.Extends pairs (state.addEdges pairs) := by
  induction pairs generalizing state with
  | nil => exact ⟨rfl, rfl, h, fun c t => by simp [addEdges]⟩
  | cons p pairs ih =>
    obtain ⟨first, apart⟩ := List.pairwise_cons.mp apart
    obtain ⟨newFirst, new⟩ := List.forall_mem_cons.mp new
    have step : (state.addEdge p.1 p.2).Extends pairs _ := ih (h.extendEdges newFirst) apart fun q hq c hc t ht => by
      rcases leads_extendEdges.mp ht with ⟨-, hp⟩ | ht
      · exact first q hq c hp hc
      · exact new q hq c hc t ht
    refine ⟨step.members_eq, step.verdict_eq, step.separate, fun c t => ?_⟩
    have edges : (state.addEdge p.1 p.2).edges = State.extendEdges state.edges p.1 p.2 := rfl
    have all := step.leads_iff c t
    rw [edges, leads_extendEdges] at all
    rw [List.exists_mem_cons_iff, eq_comm (a := p.2)]
    exact all.trans (by tauto)

/-! ## All ranges are found -/

/-- Whether reading a character leads along the range that has it, to the target of the range, and nowhere else. -/
structure Routes (pairs : List (CharRange × Nat)) (state : Dfa.State) : Prop where
  /-- The ranges of the look-up table come one before the other, as bisection needs them. -/
  ascending : state.lookup.toList.Pairwise fun a b => a.1.Before b.1
  target?_eq_some_iff : ∀ c t, state.target? c = some t ↔ ∃ r, (r, t) ∈ pairs ∧ c ∈ r
  target?_eq_none_iff : ∀ c, state.target? c = none ↔ ∀ p ∈ pairs, c ∉ p.1

/-- **Ranges that share no character are all found**, in whatever order they were added and however many of them lead to
one target. -/
theorem routes_addEdges (members : List Nat) (verdict : Verdict) (apart : pairs.Pairwise fun a b => a.1.Apart b.1) :
    ((isolated members verdict).addEdges pairs).Routes pairs := by
  have built : (isolated members verdict).Extends pairs _ :=
    extends_addEdges separate_nil apart fun _ _ _ _ _ => not_leads_nil
  have found (c : Char) (t : Nat) : ((isolated members verdict).addEdges pairs).target? c = some t ↔
      ∃ r, (r, t) ∈ pairs ∧ c ∈ r := by
    have fresh : ¬Leads (isolated members verdict).edges c t := not_leads_nil
    rw [target?_eq_some_iff built.separate, built.leads_iff, or_iff_right fresh]
    constructor
    · rintro ⟨⟨r, t'⟩, hp, rfl, hc⟩
      exact ⟨r, hp, hc⟩
    · rintro ⟨r, hp, hc⟩
      exact ⟨(r, t), hp, rfl, hc⟩
  refine ⟨ascending_lookup built.separate, found, fun c => ?_⟩
  rw [Option.eq_none_iff_forall_ne_some]
  constructor
  · intro none p hp hc
    exact none p.2 ((found c p.2).mpr ⟨p.1, hp, hc⟩)
  · intro missed t some
    obtain ⟨r, hr, hc⟩ := (found c t).mp some
    exact missed (r, t) hr hc

/-- The ranges of two targets stand in turn, without a character between them, and a third one leaves a gap. -/
theorem routes_addEdges_interleaved :
    let pairs : List (CharRange × Nat) :=
      [(.between 'g' 'i', 0), (.between 'd' 'f', 1), (.between 'a' 'c', 0), (.single 'm', 2), (.between 'j' 'k', 1)]
    let state := (isolated [] .reject).addEdges pairs
    (pairs.Pairwise fun a b => a.1.Apart b.1) ∧ state.Routes pairs ∧ state.edges.length = 3 ∧
    state.target? 'c' = some 0 ∧ state.target? 'd' = some 1 ∧ state.target? 'g' = some 0 ∧ state.target? 'l' = none ∧
    state.target? 'm' = some 2 := by
  intro pairs state
  have ordered : pairs.Pairwise fun a b => a.1.hi < b.1.lo ∨ b.1.hi < a.1.lo := by decide
  have apart : pairs.Pairwise fun a b => a.1.Apart b.1 := ordered.imp fun {a b} order =>
    order.elim (fun before => CharRange.Before.apart before) fun before => symm (CharRange.Before.apart before)
  have routes : state.Routes pairs := routes_addEdges [] .reject apart
  have missed : ∀ p ∈ pairs, p.1.contains 'l' = false := by decide
  refine ⟨apart, routes, by decide +kernel, ?_, ?_, ?_, ?_, ?_⟩
  · exact (routes.target?_eq_some_iff _ _).mpr ⟨.between 'a' 'c', by decide, CharRange.contains_iff.mp rfl⟩
  · exact (routes.target?_eq_some_iff _ _).mpr ⟨.between 'd' 'f', by decide, CharRange.contains_iff.mp rfl⟩
  · exact (routes.target?_eq_some_iff _ _).mpr ⟨.between 'g' 'i', by decide, CharRange.contains_iff.mp rfl⟩
  · exact (routes.target?_eq_none_iff _).mpr fun p hp =>
      mt CharRange.contains_iff.mpr (Bool.eq_false_iff.mp (missed p hp))
  · exact (routes.target?_eq_some_iff _ _).mpr ⟨.single 'm', by decide, CharRange.contains_iff.mp rfl⟩

end Dfa.State

namespace Dfa

/-- An automaton whose edges are separate and lead to states of it. -/
structure WellFormed (dfa : Dfa) : Prop where
  separate : ∀ state ∈ dfa.states, State.Separate state.edges
  lt_of_leads : ∀ state ∈ dfa.states, ∀ c t, State.Leads state.edges c t → t < dfa.stateCount

/-- Whether the edges of every state are separate. -/
def IsSeparate (dfa : Dfa) : Prop := ∀ state ∈ dfa.states, State.Separate state.edges

variable {dfa : Dfa} {s t : Nat} {c : Char} {state : Dfa.State}

theorem WellFormed.isSeparate (h : dfa.WellFormed) : dfa.IsSeparate := h.separate

theorem WellFormed.step_eq_some_iff (h : dfa.WellFormed) (hs : dfa.states[s]? = some state) :
    dfa.step s c = some t ↔ State.Leads state.edges c t := by
  rw [step_eq_bind, hs, Option.bind_some, State.target?_eq_some_iff (h.separate state (Array.mem_of_getElem? hs))]

theorem verdict_eq (hs : dfa.states[s]? = some state) : dfa.verdict s = state.verdict := by
  rw [verdict, hs]
  rfl

end Dfa
end TableParsing
