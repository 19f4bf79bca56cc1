import Mathlib.Data.List.Perm.Subperm
import TableParsing.Discovery
import TableParsing.Proofs.Numbering

/-! # What a search finds

**A search finds the least set of nodes that holds the seeds and the successors of its members.**  That it
finds no more holds of any search.  That nothing is missing takes enough visits: when the visits run out, or
no node is left to be visited, every node found has been visited, since all of them belong to a list that is
not longer than the number of visits.  So **the limit on the visits does not matter**: a search without one ends by
itself, and finds the same (`exhausts_discover`). -/

namespace TableParsing

variable {α : Type} [DecidableEq α] [Hashable α] {next : α → List α} {P : α → Prop} {nodes : List α}

/-- Whether a search that has no limit and is to visit the node with the number `i` next comes to an end, and with which
nodes. -/
inductive Exhausts (next : α → List α) : Nat → Numbering α → Numbering α → Prop
  | done {i : Nat} {found : Numbering α} (visited : found.elements[i]? = none) : Exhausts next i found found
  | visit {i : Nat} {found result : Numbering α} {a : α} (here : found.elements[i]? = some a)
      (rest : Exhausts next (i + 1) (found.insertAll (next a)) result) : Exhausts next i found result

/-- The successors of the first `i` nodes have been found. -/
def Visited (next : α → List α) (i : Nat) (found : Numbering α) : Prop :=
  ∀ a j, j < i → found.elements[j]? = some a → ∀ b ∈ next a, b ∈ found.toList

section Visit
variable {found : Numbering α} {i visits : Nat} {a : α}

theorem Visited.visit (h : Visited next i found) (ha : found.elements[i]? = some a) :
    Visited next (i + 1) (found.insertAll (next a)) := by
  intro a' j hj ha' b hb
  have there : j < found.toList.length := by
    have := (Array.getElem?_eq_some_iff.mp ha).1
    rw [Numbering.length_toList]
    omega
  obtain ⟨d, hd⟩ : ∃ d, found.elements[j]? = some d :=
    ⟨_, Array.getElem?_eq_getElem (by rwa [Numbering.length_toList] at there)⟩
  have same : a' = d := Option.some.inj
    (ha'.symm.trans (Numbering.getElem?_of_prefix (found.toList_prefix_insertAll _) hd))
  subst same
  rw [Numbering.mem_insertAll]
  by_cases hji : j = i
  · subst hji
    cases hd.symm.trans ha
    exact .inr hb
  · exact .inl (h a' j (by omega) hd b hb)

/-- What has been found stays where it is. -/
theorem toList_prefix_visitFrom : found.toList <+: (visitFrom next visits i found).toList := by
  induction visits generalizing i found with
  | zero => exact List.prefix_refl _
  | succ visits ih =>
    rw [visitFrom]
    split
    · exact List.prefix_refl _
    · exact (found.toList_prefix_insertAll _).trans ih

theorem of_mem_insertAll (closed : ∀ a, P a → ∀ b ∈ next a, P b) (h : ∀ a ∈ found.toList, P a)
    (ha : found.elements[i]? = some a) {b : α} (hb : b ∈ (found.insertAll (next a)).toList) : P b := by
  rcases found.mem_insertAll.mp hb with old | new
  · exact h b old
  · exact closed a (h a (found.mem_toList_iff.mpr ⟨i, ha⟩)) b new

theorem of_mem_visitFrom (closed : ∀ a, P a → ∀ b ∈ next a, P b) (h : ∀ a ∈ found.toList, P a)
    (ha : a ∈ (visitFrom next visits i found).toList) : P a := by
  induction visits generalizing i found with
  | zero => exact h a ha
  | succ visits ih =>
    rw [visitFrom] at ha
    split at ha
    · exact h a ha
    · rename_i a' ha'
      exact ih (fun b hb => of_mem_insertAll closed h ha' hb) ha

/-- All nodes found have been visited when their number has been reached. -/
theorem Visited.all {b : α} (h : Visited next i found) (le : found.elements.size ≤ i)
    (ha : a ∈ found.toList) (hb : b ∈ next a) : b ∈ found.toList := by
  obtain ⟨j, hj⟩ := found.mem_toList_iff.mp ha
  have := (Array.getElem?_eq_some_iff.mp hj).1
  exact h a j (by omega) hj b hb

theorem size_le_of_subset (listed : ∀ a, P a → a ∈ nodes) (h : ∀ a ∈ found.toList, P a) :
    found.elements.size ≤ nodes.length :=
  (found.nodup_toList.subperm fun a ha => listed a (h a ha)).length_le

theorem visitFrom_closed {b : α} (closed : ∀ a, P a → ∀ b ∈ next a, P b)
    (listed : ∀ a, P a → a ∈ nodes) (room : nodes.length ≤ i + visits)
    (h : ∀ a ∈ found.toList, P a) (visited : Visited next i found)
    (ha : a ∈ (visitFrom next visits i found).toList) (hb : b ∈ next a) :
    b ∈ (visitFrom next visits i found).toList := by
  induction visits generalizing i found with
  | zero => exact visited.all (Nat.le_trans (size_le_of_subset listed h) room) ha hb
  | succ visits ih =>
    rw [visitFrom] at ha ⊢
    split at ha
    · rename_i none
      exact visited.all (Array.getElem?_eq_none_iff.mp none) ha hb
    · rename_i a' ha'
      exact ih (by omega) (fun b hb => of_mem_insertAll closed h ha' hb) (visited.visit ha') ha

/-- A search that has visits left, or has visited all that can be found, ends by itself. -/
theorem exhausts_visitFrom (closed : ∀ a, P a → ∀ b ∈ next a, P b) (listed : ∀ a, P a → a ∈ nodes)
    (room : nodes.length ≤ i + visits) (h : ∀ a ∈ found.toList, P a) :
    Exhausts next i found (visitFrom next visits i found) := by
  induction visits generalizing i found with
  | zero => exact .done (Array.getElem?_eq_none (Nat.le_trans (size_le_of_subset listed h) room))
  | succ visits ih =>
    rw [visitFrom]
    split
    · rename_i none
      exact .done none
    · rename_i a ha
      exact .visit ha (ih (by omega) fun b hb => of_mem_insertAll closed h ha hb)

end Visit

section Discover
variable {visits : Nat} {seeds : List α} {a b : α}

theorem mem_discover_of_mem (h : a ∈ seeds) : a ∈ (discover next visits seeds).toList :=
  toList_prefix_visitFrom.subset (Numbering.mem_ofList.mpr h)

/-- A set that holds the seeds and the successors of its members holds all that is found. -/
theorem of_mem_discover (closed : ∀ a, P a → ∀ b ∈ next a, P b) (h : ∀ a ∈ seeds, P a)
    (ha : a ∈ (discover next visits seeds).toList) : P a :=
  of_mem_visitFrom closed (fun a ha => h a (Numbering.mem_ofList.mp ha)) ha

/-- **With enough visits nothing is missing**: the successors of what is found are found too. -/
theorem mem_discover_of_mem_next (closed : ∀ a, P a → ∀ b ∈ next a, P b)
    (listed : ∀ a, P a → a ∈ nodes) (room : nodes.length ≤ visits) (h : ∀ a ∈ seeds, P a)
    (ha : a ∈ (discover next visits seeds).toList) (hb : b ∈ next a) :
    b ∈ (discover next visits seeds).toList :=
  visitFrom_closed closed listed (by omega) (fun a ha => h a (Numbering.mem_ofList.mp ha))
    (fun _ j hj => absurd hj (Nat.not_lt_zero j)) ha hb

/-- **With enough visits a search ends by itself.** -/
theorem exhausts_discover (closed : ∀ a, P a → ∀ b ∈ next a, P b) (listed : ∀ a, P a → a ∈ nodes)
    (room : nodes.length ≤ visits) (h : ∀ a ∈ seeds, P a) :
    Exhausts next 0 (.ofList seeds) (discover next visits seeds) :=
  exhausts_visitFrom closed listed (by omega) fun a ha => h a (Numbering.mem_ofList.mp ha)

/-- The seed of a search has the number 0. -/
theorem getElem?_discover_singleton : (discover next visits [a]).elements[0]? = some a :=
  Numbering.getElem?_of_prefix toList_prefix_visitFrom (by rw [Numbering.elements_ofList_singleton]; rfl)

end Discover
end TableParsing
