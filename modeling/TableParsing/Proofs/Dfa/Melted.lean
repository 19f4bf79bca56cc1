import Mathlib.Data.List.Nodup
import TableParsing.Proofs.CharSet.Gapped
import TableParsing.Proofs.Dfa.Lookup

/-! # Edges that are built anew

Adding ranges to a state leaves its edges **melted**: no two of them have one target, and every label is gapped and has
a range.  Nothing of such edges depends on how they came about, so adding their ranges to a state without edges
gives back the same edges (`addEdges_entries`). -/

namespace TableParsing
namespace Dfa.State

variable {edges : List (CharSet × Nat)} {r : CharRange} {target : Nat}

/-- Edges as they are when they were built range by range. -/
structure Melted (edges : List (CharSet × Nat)) : Prop where
  nodup : (edges.map Prod.snd).Nodup
  gapped : ∀ e ∈ edges, Gapped e.1.ranges
  ranges_ne_nil : ∀ e ∈ edges, e.1.ranges ≠ []

theorem melted_nil : Melted [] := ⟨.nil, List.forall_mem_nil _, List.forall_mem_nil _⟩

theorem addEdges_cons (state : Dfa.State) (p : CharRange × Nat) (pairs : List (CharRange × Nat)) :
    state.addEdges (p :: pairs) = (state.addEdge p.1 p.2).addEdges pairs := rfl

theorem addEdges_append (state : Dfa.State) (pairs pairs' : List (CharRange × Nat)) :
    state.addEdges (pairs ++ pairs') = (state.addEdges pairs).addEdges pairs' := List.foldl_append

/-! ## Ranges that are added -/

theorem map_snd_extendEdges : (extendEdges edges r target).map Prod.snd =
    if target ∈ edges.map Prod.snd then edges.map Prod.snd else edges.map Prod.snd ++ [target] := by
  induction edges with
  | nil => rfl
  | cons e edges ih =>
    obtain ⟨label, t⟩ := e
    rw [extendEdges, List.map_cons]
    split
    · rename_i same
      rw [if_pos (same ▸ List.mem_cons_self), List.map_cons]
    · rename_i other
      rw [List.map_cons, ih]
      split
      · rename_i there
        rw [if_pos (List.mem_cons_of_mem _ there)]
      · rename_i absent
        rw [if_neg (List.not_mem_cons_of_ne_of_not_mem (Ne.symm other) absent), List.cons_append]

/-- An edge that a range was added to is an edge from before, or has a label that the range was inserted into. -/
theorem mem_extendEdges {e : CharSet × Nat} (he : e ∈ extendEdges edges r target) :
    e ∈ edges ∨ ∃ label, (label = .empty ∨ (label, target) ∈ edges) ∧ e = (label.insert r, target) := by
  induction edges with
  | nil => exact .inr ⟨.empty, .inl rfl, List.mem_singleton.mp he⟩
  | cons first edges ih =>
    obtain ⟨label, t⟩ := first
    rw [extendEdges] at he
    split at he <;> rename_i same
    · rcases List.mem_cons.mp he with rfl | he
      · exact .inr ⟨label, .inr (same ▸ List.mem_cons_self), same ▸ rfl⟩
      · exact .inl (List.mem_cons_of_mem _ he)
    · rcases List.mem_cons.mp he with rfl | he
      · exact .inl List.mem_cons_self
      · rcases ih he with he | ⟨label', there, rfl⟩
        · exact .inl (List.mem_cons_of_mem _ he)
        · exact .inr ⟨label', there.imp_right (List.mem_cons_of_mem _), rfl⟩

theorem Melted.extendEdges (h : Melted edges) : Melted (extendEdges edges r target) := by
  constructor
  · rw [map_snd_extendEdges]
    split
    · exact h.nodup
    · rename_i absent
      rw [← List.concat_eq_append]
      exact List.Nodup.concat absent h.nodup
  · intro e he
    rcases mem_extendEdges he with he | ⟨label, rfl | there, rfl⟩
    · exact h.gapped e he
    · exact CharSet.gapped_insert .nil r
    · exact CharSet.gapped_insert (h.gapped _ there) r
  · intro e he
    rcases mem_extendEdges he with he | ⟨label, -, rfl⟩
    · exact h.ranges_ne_nil e he
    · exact label.insert_ranges_ne_nil r

theorem Melted.addEdges {state : Dfa.State} (h : Melted state.edges) (pairs : List (CharRange × Nat)) :
    Melted (state.addEdges pairs).edges := by
  induction pairs generalizing state with
  | nil => exact h
  | cons p pairs ih =>
    have step : Melted (state.addEdge p.1 p.2).edges := h.extendEdges
    exact ih step

/-! ## Edges from their ranges -/

section Last
variable {label : CharSet} {t : Nat} (absent : t ∉ edges.map Prod.snd)
include absent

/-- A range with a new target is the first range of a new edge. -/
theorem extendEdges_of_not_mem : extendEdges edges r t = edges ++ [(CharSet.empty.insert r, t)] := by
  induction edges with
  | nil => rfl
  | cons e edges ih =>
    obtain ⟨other, here⟩ := not_or.mp fun h => absent (List.mem_cons.mpr h)
    rw [extendEdges, if_neg (Ne.symm other), ih here, List.cons_append]

/-- A range with the target of the last edge goes into that edge. -/
theorem extendEdges_append : extendEdges (edges ++ [(label, t)]) r t = edges ++ [(label.insert r, t)] := by
  induction edges with
  | nil => exact if_pos rfl
  | cons e edges ih =>
    obtain ⟨other, here⟩ := not_or.mp fun h => absent (List.mem_cons.mpr h)
    rw [List.cons_append, extendEdges, if_neg (Ne.symm other), ih here, List.cons_append]

theorem addEdges_last (members : List Nat) (verdict : Verdict) (ranges : List CharRange) :
    State.addEdges ⟨members, edges ++ [(label, t)], verdict⟩ (ranges.map (·, t)) =
      ⟨members, edges ++ [(ranges.foldl .insert label, t)], verdict⟩ := by
  induction ranges generalizing label with
  | nil => rfl
  | cons r ranges ih =>
    have first : State.addEdge ⟨members, edges ++ [(label, t)], verdict⟩ r t =
        ⟨members, edges ++ [(label.insert r, t)], verdict⟩ :=
      congrArg (State.mk members · verdict) (extendEdges_append absent)
    rw [List.map_cons, addEdges_cons, first]
    exact ih

/-- **The ranges of a label make one edge with that label.** -/
theorem addEdges_ranges (members : List Nat) (verdict : Verdict) (gapped : Gapped label.ranges)
    (ne : label.ranges ≠ []) :
    State.addEdges ⟨members, edges, verdict⟩ (label.ranges.map (·, t)) =
      ⟨members, edges ++ [(label, t)], verdict⟩ := by
  obtain ⟨r, ranges, split⟩ := List.exists_cons_of_ne_nil ne
  have first : State.addEdge ⟨members, edges, verdict⟩ r t =
      ⟨members, edges ++ [(CharSet.empty.insert r, t)], verdict⟩ :=
    congrArg (State.mk members · verdict) (extendEdges_of_not_mem absent)
  have whole : ranges.foldl .insert (CharSet.empty.insert r) = label := by
    rw [← List.foldl_cons, ← split, CharSet.foldl_insert_ranges gapped]
  rw [split, List.map_cons, addEdges_cons, first, addEdges_last absent members verdict ranges, whole]

end Last

theorem addEdges_entries_append {before : List (CharSet × Nat)} (h : Melted (before ++ edges)) (members : List Nat)
    (verdict : Verdict) :
    State.addEdges ⟨members, before, verdict⟩ (entries edges) = ⟨members, before ++ edges, verdict⟩ := by
  induction edges generalizing before with
  | nil =>
    rw [List.append_nil]
    rfl
  | cons e edges ih =>
    have mem : e ∈ before ++ e :: edges := List.mem_append_right _ List.mem_cons_self
    have absent : e.2 ∉ before.map Prod.snd := by
      have nodup := h.nodup
      rw [List.map_append, List.map_cons] at nodup
      exact fun there => (List.nodup_append.mp nodup).2.2 _ there _ List.mem_cons_self rfl
    have first := addEdges_ranges absent members verdict (h.gapped e mem) (h.ranges_ne_nil e mem)
    have split : entries (e :: edges) = e.1.ranges.map (·, e.2) ++ entries edges := List.flatMap_cons
    rw [List.append_cons] at h ⊢
    rw [split, addEdges_append, first]
    exact ih h

/-- **Melted edges are built anew from their ranges.** -/
theorem addEdges_entries {state : Dfa.State} (h : Melted state.edges) :
    (State.isolated state.members state.verdict).addEdges (entries state.edges) = state := by
  have all : Melted ([] ++ state.edges) := h
  exact addEdges_entries_append all state.members state.verdict

end Dfa.State
end TableParsing
