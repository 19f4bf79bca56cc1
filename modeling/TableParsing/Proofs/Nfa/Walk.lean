import Mathlib.Computability.Language
import Mathlib.Order.CompletePartialOrder
import TableParsing.Nfa.Thompson

/-! # Words along the edges

A `Walk` follows edges from state to state, and its word is what is read on the way.  The words of all walks
from one state to another are the language `between` the two states.  **It is the least solution** of the
inequations that the edges stand for: a state is between itself and itself without reading, and what is read
along an edge comes before what is read from there (`between_le`).  So what a change of the edges does to the
languages is calculated, with walks no longer in sight. -/

namespace TableParsing

open Computability

/-- The words of one character from the set. -/
def CharSet.words (set : CharSet) : Language Char := {word | ∃ c, set.contains c = true ∧ word = [c]}

/-- What is read along an edge. -/
def Exit.words (exit : Exit) : Language Char :=
  match exit.label with
  | none => 1
  | some set => set.words

/-- A walk along the edges that leave each state, with the word that is read. -/
inductive Walk (exits : Nat → List Exit) : Nat → List Char → Nat → Prop where
  | stay (s : Nat) : Walk exits s [] s
  | skip {s m t : Nat} {word : List Char} (edge : ⟨m, none⟩ ∈ exits s) (rest : Walk exits m word t) :
      Walk exits s word t
  | read {s m t : Nat} {set : CharSet} {c : Char} {word : List Char} (edge : ⟨m, some set⟩ ∈ exits s)
      (reads : set.contains c = true) (rest : Walk exits m word t) : Walk exits s (c :: word) t

/-- The words of the walks from `s` to `t`. -/
def between (exits : Nat → List Exit) (s t : Nat) : Language Char := {word | Walk exits s word t}

variable {exits exits' : Nat → List Exit} {s t m : Nat} {exit : Exit}

namespace Walk
variable {word word' : List Char}

theorem append (h : Walk exits s word m) (h' : Walk exits m word' t) : Walk exits s (word ++ word') t := by
  induction h with
  | stay _ => exact h'
  | skip edge _ ih => exact .skip edge (ih h')
  | read edge reads _ ih => exact .read edge reads (ih h')

/-- A walk along one edge and on. -/
theorem along (edge : exit ∈ exits s) (hword : word ∈ exit.words) (rest : Walk exits exit.target word' t) :
    Walk exits s (word ++ word') t := by
  obtain ⟨target, label⟩ := exit
  cases label with
  | none =>
    cases hword
    exact .skip edge rest
  | some set =>
    obtain ⟨c, reads, rfl⟩ := hword
    exact .read edge reads rest

/-- The last character of a word is read along an edge. -/
theorem split_last {c : Char} (h : Walk exits s (word ++ [c]) t) :
    ∃ m m' set, Walk exits s word m ∧ ⟨m', some set⟩ ∈ exits m ∧ set.contains c = true ∧
      Walk exits m' [] t := by
  -- on the walk: the last edge that reads may have others behind it that do not
  generalize hall : word ++ [c] = all at h
  induction h generalizing word with
  | stay _ => exact absurd hall (by simp)
  | skip edge _ ih =>
    obtain ⟨m, m', set, front, back⟩ := ih hall
    exact ⟨m, m', set, .skip edge front, back⟩
  | read edge reads rest ih =>
    cases word with
    | nil =>
      cases hall
      exact ⟨_, _, _, .stay _, edge, reads, rest⟩
    | cons d word =>
      cases hall
      obtain ⟨m, m', set, front, back⟩ := ih rfl
      exact ⟨m, m', set, .read edge reads front, back⟩

end Walk

/-! ## The least solution -/

theorem one_le_between : 1 ≤ between exits s s := by
  rintro _ rfl
  exact .stay s

theorem words_mul_between_le (edge : exit ∈ exits s) :
    exit.words * between exits exit.target t ≤ between exits s t := by
  rintro _ ⟨word, hword, word', rest, rfl⟩
  exact .along edge hword rest

theorem between_mul_between_le : between exits s m * between exits m t ≤ between exits s t := by
  rintro _ ⟨word, front, word', back, rfl⟩
  exact Walk.append front back

/-- **Every solution has the words of the walks.** -/
theorem between_le {F : Nat → Language Char} (base : 1 ≤ F t)
    (step : ∀ s, ∀ exit ∈ exits s, exit.words * F exit.target ≤ F s) : between exits s t ≤ F s := by
  intro word h
  induction h with
  | stay s => exact base rfl
  | skip edge _ ih => exact step _ _ edge ⟨[], rfl, _, ih base, rfl⟩
  | read edge reads _ ih => exact step _ _ edge ⟨[_], ⟨_, reads, rfl⟩, _, ih base, rfl⟩

/-! ## Where walks lead -/

/-- No edge leads out of the set. -/
def Closed (exits : Nat → List Exit) (area : Set Nat) : Prop :=
  ∀ s ∈ area, ∀ exit ∈ exits s, exit.target ∈ area

theorem Closed.mem {area : Set Nat} {word : List Char} (closed : Closed exits area) (hs : s ∈ area)
    (h : Walk exits s word t) : t ∈ area := by
  induction h with
  | stay _ => exact hs
  | skip edge _ ih => exact ih (closed _ hs _ edge)
  | read edge _ _ ih => exact ih (closed _ hs _ edge)

theorem Closed.between_eq_zero {area : Set Nat} (closed : Closed exits area) (hs : s ∈ area)
    (ht : t ∉ area) : between exits s t = 0 :=
  bot_unique fun _ h => ht (closed.mem hs h)

theorem Closed.insert {area : Set Nat} (closed : Closed exits area) (h : exits s = []) :
    Closed exits (insert s area) := by
  rintro a (rfl | ha) exit edge
  · rw [h] at edge
    cases edge
  · exact .inr (closed a ha exit edge)

theorem closed_empty : Closed exits ∅ := fun _ hs => hs.elim

/-- A state that is not left leads to itself alone. -/
theorem between_of_eq_nil (h : exits s = []) (hst : s ≠ t) : between exits s t = 0 :=
  (closed_empty.insert h).between_eq_zero (.inl rfl) fun ht => ht.elim (Ne.symm hst) id

theorem between_self_of_eq_nil (h : exits s = []) : between exits s s = 1 := by
  refine le_antisymm ?_ one_le_between
  rintro word walk
  cases walk with
  | stay _ => rfl
  | skip edge _ => rw [h] at edge; cases edge
  | read edge _ _ => rw [h] at edge; cases edge

/-- More edges have more words. -/
theorem between_mono (h : ∀ s, ∀ exit ∈ exits s, exit ∈ exits' s) : between exits s t ≤ between exits' s t :=
  between_le (F := fun s => between exits' s t) one_le_between fun s exit edge =>
    words_mul_between_le (h s exit edge)

/-! ## One more edge -/

/-- **The words after an edge has been added**: those from before, and those that take the new edge for a
first and for a last time, with any number of times between. -/
theorem between_add {u : Nat} {new : Exit}
    (h : ∀ s exit, exit ∈ exits' s ↔ exit ∈ exits s ∨ s = u ∧ exit = new) :
    between exits' s t = between exits s t +
      between exits s u * (new.words * between exits new.target u)∗ *
        (new.words * between exits new.target t) := by
  have old : ∀ s t, between exits s t ≤ between exits' s t := fun s t =>
    between_mono fun s exit edge => (h s exit).mpr (.inl edge)
  have along : ∀ t, new.words * between exits new.target t ≤ between exits' u t := fun t =>
    (mul_le_mul_right (old new.target t) new.words).trans
      (words_mul_between_le ((h u new).mpr (.inr ⟨rfl, rfl⟩)))
  -- no more: the right-hand side solves the inequations of the edges
  refine le_antisymm ?_ (add_le (old s t) ?_)
  · refine between_le (F := fun s => between exits s t +
      between exits s u * (new.words * between exits new.target u)∗ *
        (new.words * between exits new.target t)) (le_add_right one_le_between) fun s exit edge => ?_
    rcases (h s exit).mp edge with edge | ⟨rfl, rfl⟩
    · rw [mul_add, ← mul_assoc exit.words, ← mul_assoc exit.words]
      exact add_le_add (words_mul_between_le edge)
        (mul_le_mul_left (mul_le_mul_left (words_mul_between_le edge) _) _)
    -- the new edge: it is taken for a first time, and what follows is a round or the last part
    · have unfolded : exit.words * (between exits exit.target t + between exits exit.target s *
            (exit.words * between exits exit.target s)∗ * (exit.words * between exits exit.target t)) =
          (exit.words * between exits exit.target s)∗ * (exit.words * between exits exit.target t) := by
        conv_rhs => rw [← one_add_mul_kstar, add_mul, one_mul]
        rw [mul_add]
        simp only [mul_assoc]
      rw [unfolded]
      exact le_add_left (mul_le_mul_left (le_mul_of_one_le_left' one_le_between) _)
  -- no less: every part of the right-hand side is a walk
  · have loop : (new.words * between exits new.target u)∗ ≤ between exits' u u :=
      kstar_le_of_mul_le_left one_le_between
        ((mul_le_mul_right (along u) _).trans between_mul_between_le)
    calc between exits s u * (new.words * between exits new.target u)∗ *
          (new.words * between exits new.target t)
        ≤ between exits' s u * between exits' u u * between exits' u t :=
          mul_le_mul' (mul_le_mul' (old s u) loop) (along t)
      _ ≤ between exits' s u * between exits' u t := mul_le_mul_left between_mul_between_le _
      _ ≤ between exits' s t := between_mul_between_le

/-- An edge to a state that is not left is taken at most once. -/
theorem between_add_last {u : Nat} {new : Exit}
    (h : ∀ s exit, exit ∈ exits' s ↔ exit ∈ exits s ∨ s = u ∧ exit = new)
    (last : exits new.target = []) (hu : u ≠ new.target) :
    between exits' s new.target = between exits s new.target + between exits s u * new.words := by
  rw [between_add h, between_of_eq_nil last hu.symm, between_self_of_eq_nil last, mul_zero, kstar_zero,
    mul_one, mul_one]

/-- An edge from which there is no way to a state does not lead there. -/
theorem between_add_of_eq_zero {u : Nat} {new : Exit}
    (h : ∀ s exit, exit ∈ exits' s ↔ exit ∈ exits s ∨ s = u ∧ exit = new)
    (away : between exits s u = 0 ∨ between exits new.target t = 0) :
    between exits' s t = between exits s t := by
  rw [between_add h]
  rcases away with away | away <;> rw [away]
  · rw [zero_mul, zero_mul, add_zero]
  · rw [mul_zero, mul_zero, add_zero]

/-- An edge out of a state to which no walk comes back leads on. -/
theorem between_add_first {u : Nat} {new : Exit}
    (h : ∀ s exit, exit ∈ exits' s ↔ exit ∈ exits s ∨ s = u ∧ exit = new)
    (once : between exits u u = 1) (away : between exits new.target u = 0) :
    between exits' u t = between exits u t + new.words * between exits new.target t := by
  rw [between_add h, once, away, mul_zero, kstar_zero, one_mul, one_mul]

/-! ## Bent edges -/

section Bent
variable {first last : Nat} {f : Nat → Nat} (hlast : f last = first) (hf : ∀ s, s ≠ last → f s = s)
  (h : ∀ s exit', exit' ∈ exits' s ↔ ∃ exit ∈ exits s, exit' = exit.retarget f) (final : exits last = [])
include hlast hf h final

omit hlast in
/-- An old walk is a new one, with the bent state for the last one. -/
theorem between_le_bent (s t : Nat) : between exits s t ≤ between exits' (f s) (f t) := by
  refine between_le (F := fun s => between exits' (f s) (f t)) one_le_between fun s exit edge => ?_
  have hs : s ≠ last := by
    rintro rfl
    rw [final] at edge
    cases edge
  rw [hf s hs]
  have edge' : exit.retarget f ∈ exits' s := (h s _).mpr ⟨exit, edge, rfl⟩
  exact words_mul_between_le edge'

/-- A new walk is an old one, or one to the last state and one from the first. -/
theorem bent_le_between (away : between exits first last = 0) :
    between exits' s t ≤ between exits s t + between exits s last * between exits first t := by
  refine between_le (F := fun s => between exits s t + between exits s last * between exits first t)
    (le_add_right one_le_between) fun s exit' edge' => ?_
  obtain ⟨exit, edge, rfl⟩ := (h s exit').mp edge'
  by_cases hm : exit.target = last
  · have intoLast : exit.words ≤ between exits s last := by
      have := words_mul_between_le (t := last) edge
      rwa [hm, between_self_of_eq_nil final, mul_one] at this
    have target : (exit.retarget f).target = first := by
      rw [← hlast, ← hm]
      rfl
    rw [target, away, zero_mul, add_zero]
    exact le_add_left (mul_le_mul_left intoLast _)
  · have same : exit.retarget f = exit := by
      rw [Exit.retarget, hf _ hm]
    rw [same, mul_add, ← mul_assoc]
    exact add_le_add (words_mul_between_le edge) (mul_le_mul_left (words_mul_between_le edge) _)

/-- **The words after the edges into `last`, which is not left, have been bent over to `first`**: those from
before, and those that lead to `last`, followed by those that lead on from `first`. -/
theorem between_bend (away : between exits first last = 0) (hs : s ≠ last) (ht : t ≠ last) :
    between exits' s t = between exits s t + between exits s last * between exits first t := by
  refine le_antisymm (bent_le_between hlast hf h final away) (add_le ?_ ?_)
  · have := between_le_bent hf h final s t
    rwa [hf s hs, hf t ht] at this
  · have front := between_le_bent hf h final s last
    have back := between_le_bent hf h final first t
    -- there is no way from the first to the last, but there is one from any state to itself
    have hfirst : first ≠ last := by
      rintro rfl
      have nil : [] ∈ between exits first first := one_le_between rfl
      rw [away] at nil
      cases nil
    rw [hf s hs, hlast] at front
    rw [hf first hfirst, hf t ht] at back
    exact (mul_le_mul' front back).trans between_mul_between_le

end Bent

/-! ## Renumbered states -/

section Renumbered
variable {f : Nat → Nat} {area : Set Nat} {word : List Char}

theorem Walk.map (closed : Closed exits area)
    (h : ∀ s ∈ area, ∀ exit ∈ exits s, exit.retarget f ∈ exits' (f s)) (hs : s ∈ area)
    (walk : Walk exits s word t) : Walk exits' (f s) word (f t) := by
  induction walk with
  | stay s => exact .stay _
  | skip edge _ ih => exact .skip (h _ hs _ edge) (ih (closed _ hs _ edge))
  | read edge reads _ ih => exact .read (h _ hs _ edge) reads (ih (closed _ hs _ edge))

theorem Walk.unmap {s' t' : Nat} (closed : Closed exits area)
    (h : ∀ s ∈ area, ∀ exit' ∈ exits' (f s), ∃ exit ∈ exits s, exit' = exit.retarget f) (hs : s ∈ area)
    (walk : Walk exits' s' word t') (hs' : s' = f s) : ∃ t ∈ area, t' = f t ∧ Walk exits s word t := by
  induction walk generalizing s with
  | stay _ => exact ⟨s, hs, hs', .stay s⟩
  | skip edge' _ ih =>
    subst hs'
    obtain ⟨⟨m, label⟩, edge, same⟩ := h s hs _ edge'
    cases same
    obtain ⟨t, ht, rfl, rest⟩ := ih (closed s hs _ edge) rfl
    exact ⟨t, ht, rfl, .skip edge rest⟩
  | read edge' reads _ ih =>
    subst hs'
    obtain ⟨⟨m, label⟩, edge, same⟩ := h s hs _ edge'
    cases same
    obtain ⟨t, ht, rfl, rest⟩ := ih (closed s hs _ edge) rfl
    exact ⟨t, ht, rfl, .read edge reads rest⟩

/-- **Numbers do not matter**: states that are numbered anew, each with its edges, have the same words
between them. -/
theorem between_map (closed : Closed exits area) (inj : Set.InjOn f area)
    (h : ∀ s ∈ area, ∀ exit', exit' ∈ exits' (f s) ↔ ∃ exit ∈ exits s, exit' = exit.retarget f)
    (hs : s ∈ area) (ht : t ∈ area) : between exits' (f s) (f t) = between exits s t := by
  refine le_antisymm (fun word walk => ?_) (fun word walk => ?_)
  · obtain ⟨t', ht', same, walk⟩ :=
      Walk.unmap closed (fun s hs exit' => (h s hs exit').mp) hs walk rfl
    rwa [inj ht ht' same]
  · exact Walk.map closed (fun s hs exit edge => (h s hs _).mpr ⟨exit, edge, rfl⟩) hs walk

/-- Only the edges within a closed set matter for it. -/
theorem between_congr (closed : Closed exits area) (same : ∀ s ∈ area, exits' s = exits s) (hs : s ∈ area) :
    between exits' s t = between exits s t := by
  have closed' : Closed exits' area := fun s hs exit edge => closed s hs exit (same s hs ▸ edge)
  refine le_antisymm (fun word walk => ?_) (fun word walk => ?_)
  · exact Walk.map (f := id) closed' (fun s hs exit edge => same s hs ▸ edge) hs walk
  · exact Walk.map (f := id) closed (fun s hs exit edge => (same s hs).symm ▸ edge) hs walk

end Renumbered
end TableParsing
