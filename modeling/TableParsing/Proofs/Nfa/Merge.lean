import TableParsing.Proofs.Nfa.Liveness

/-! # Merged automata

A part is joined to an automaton by one edge from the start, to which nothing leads back.  So a walk from the start
stays in the automaton, or it takes that edge first and stays in the part (`between_join_left`, `between_join_right`).

In the automaton that is merged of some parts, then, **the slots behind a text are the numbers of the parts that accept
it** (`IsMerged.mem_slots`), and something can be read if it is the front of a word of some part
(`IsMerged.reads`). -/

namespace TableParsing

/-- A walk can be cut anywhere in its word. -/
theorem Walk.exists_front {exits : Nat → List Exit} {s t : Nat} {front back : List Char}
    (h : Walk exits s (front ++ back) t) : ∃ m, Walk exits s front m := by
  generalize hall : front ++ back = all at h
  induction h generalizing front with
  | stay s =>
    obtain ⟨rfl, -⟩ := List.append_eq_nil_iff.mp hall
    exact ⟨s, .stay s⟩
  | skip edge _ ih =>
    obtain ⟨m, walk⟩ := ih hall
    exact ⟨m, .skip edge walk⟩
  | read edge reads _ ih =>
    cases front with
    | nil => exact ⟨_, .stay _⟩
    | cons c front =>
      cases hall
      obtain ⟨m, walk⟩ := ih rfl
      exact ⟨m, .read edge reads walk⟩

namespace Nfa

variable {nfa part : Nfa} {s t : Nat} {word : List Char}

/-! ## One more part -/

theorem mem_edges_join {e : Edge} : e ∈ (nfa.join part).edges ↔ e ∈ nfa.edges ∨
    (∃ e' ∈ part.edges, e = e'.shift nfa.stateCount) ∨ e = ⟨nfa.start, part.start + nfa.stateCount, none⟩ := by
  rw [join, List.mem_append, List.mem_append, List.mem_map, List.mem_singleton, or_assoc]
  simp only [eq_comm]

theorem IsLabelled.join (h : nfa.IsLabelled) (h' : part.IsLabelled) : (nfa.join part).IsLabelled := by
  intro e he
  rcases mem_edges_join.mp he with he | ⟨e', he', rfl⟩ | rfl
  · exact h e he
  · exact h' e' he'
  · nofun

theorem stateCount_join : (nfa.join part).stateCount = nfa.stateCount + part.stateCount := rfl

/-- The edges of two automata side by side, the states of the second being numbered on. -/
def beside (nfa part : Nfa) (s : Nat) : List Exit :=
  if s < nfa.stateCount then nfa.exits s
  else (part.exits (s - nfa.stateCount)).map (·.retarget (· + nfa.stateCount))

section Join
variable (h : nfa.IsClosed) (h' : part.IsClosed)
include h h'

theorem IsClosed.join : (nfa.join part).IsClosed := by
  refine ⟨⟨?_, fun e he => ?_⟩, fun e he => ?_⟩ <;> rw [stateCount_join]
  · exact Nat.lt_of_lt_of_le h.start_lt (Nat.le_add_right _ _)
  · rcases mem_edges_join.mp he with he | ⟨e', he', rfl⟩ | rfl
    · exact Nat.lt_of_lt_of_le (h.target_lt e he) (Nat.le_add_right _ _)
    · have lt := h'.target_lt e' he'
      change e'.target + nfa.stateCount < _
      omega
    · have lt := h'.start_lt
      change part.start + nfa.stateCount < _
      omega
  · rcases mem_edges_join.mp he with he | ⟨e', he', rfl⟩ | rfl
    · exact Nat.lt_of_lt_of_le (h.source_lt e he) (Nat.le_add_right _ _)
    · have lt := h'.source_lt e' he'
      change e'.source + nfa.stateCount < _
      omega
    · exact Nat.lt_of_lt_of_le h.start_lt (Nat.le_add_right _ _)

/-- The automata side by side, with one more edge. -/
theorem mem_exits_join (s : Nat) (exit : Exit) : exit ∈ (nfa.join part).exits s ↔
    exit ∈ nfa.beside part s ∨ s = nfa.start ∧ exit = ⟨part.start + nfa.stateCount, none⟩ := by
  obtain ⟨target, label⟩ := exit
  have inside : ⟨target, label⟩ ∈ nfa.beside part s ↔ ⟨s, target, label⟩ ∈ nfa.edges ∨
      ∃ e ∈ part.edges, (⟨s, target, label⟩ : Edge) = e.shift nfa.stateCount := by
    rw [beside]
    split
    · rename_i lt
      rw [h.mem_exits, or_iff_left]
      rintro ⟨e, -, same⟩
      have source : s = e.source + nfa.stateCount := congrArg Edge.source same
      omega
    · rename_i le
      rw [List.mem_map, or_iff_right fun he => le (h.source_lt _ he)]
      constructor
      · rintro ⟨exit, edge, same⟩
        cases same
        refine ⟨_, h'.mem_exits.mp edge, ?_⟩
        rw [Edge.shift, Nat.sub_add_cancel (Nat.le_of_not_lt le)]
      · rintro ⟨e, he, same⟩
        have source : s = e.source + nfa.stateCount := congrArg Edge.source same
        cases same
        refine ⟨⟨e.target, e.label⟩, h'.mem_exits.mpr ?_, rfl⟩
        rwa [Nat.add_sub_cancel]
  rw [(h.join h').mem_exits, mem_edges_join, inside, or_assoc, Edge.mk.injEq, Exit.mk.injEq]

omit h' in
theorem between_beside_left (hs : s < nfa.stateCount) : between (nfa.beside part) s t = between nfa.exits s t :=
  between_congr h.closed (fun _ hs => if_pos hs) hs

omit h in
/-- The part is itself, but for the numbers, and is not left. -/
theorem between_beside_right (hs : s < part.stateCount) :
    (t < part.stateCount →
        between (nfa.beside part) (s + nfa.stateCount) (t + nfa.stateCount) = between part.exits s t) ∧
      (t < nfa.stateCount → between (nfa.beside part) (s + nfa.stateCount) t = 0) := by
  have edges (s : Nat) (exit' : Exit) : exit' ∈ nfa.beside part (s + nfa.stateCount) ↔
      ∃ exit ∈ part.exits s, exit' = exit.retarget (· + nfa.stateCount) := by
    rw [beside, if_neg (by omega), Nat.add_sub_cancel, List.mem_map]
    exact exists_congr fun exit => and_congr_right fun _ => eq_comm
  constructor
  · intro ht
    exact between_map h'.closed (add_left_injective _).injOn (fun s _ => edges s) hs ht
  · intro ht
    have closed : Closed (nfa.beside part) {u | ∃ s < part.stateCount, u = s + nfa.stateCount} := by
      rintro _ ⟨s, hs, rfl⟩ exit' edge'
      obtain ⟨exit, edge, rfl⟩ := (edges s exit').mp edge'
      exact ⟨exit.target, h'.closed s hs exit edge, rfl⟩
    refine closed.between_eq_zero ⟨s, hs, rfl⟩ ?_
    rintro ⟨u, -, rfl⟩
    omega

variable (once : between nfa.exits nfa.start nfa.start = 1)
include once

/-- The new edge is taken first, if at all. -/
theorem between_join : between (nfa.join part).exits (nfa.join part).start t = between nfa.exits nfa.start t +
    between (nfa.beside part) (part.start + nfa.stateCount) t := by
  have first : between (nfa.beside part) nfa.start nfa.start = 1 := (between_beside_left h h.start_lt).trans once
  have away : between (nfa.beside part) (part.start + nfa.stateCount) nfa.start = 0 :=
    (between_beside_right h' h'.start_lt).2 h.start_lt
  have words : Exit.words ⟨part.start + nfa.stateCount, none⟩ = 1 := rfl
  have joined := between_add_first (t := t) (mem_exits_join h h') first away
  rwa [words, one_mul, between_beside_left h h.start_lt] at joined

/-- **A walk to a state from before has not taken the new edge.** -/
theorem between_join_left (ht : t < nfa.stateCount) :
    between (nfa.join part).exits (nfa.join part).start t = between nfa.exits nfa.start t := by
  rw [between_join h h' once, (between_beside_right h' h'.start_lt).2 ht, add_zero]

/-- **A walk to a state of the part is one in the part.** -/
theorem between_join_right (ht : t < part.stateCount) :
    between (nfa.join part).exits (nfa.join part).start (t + nfa.stateCount) = between part.exits part.start t := by
  have away : between nfa.exits nfa.start (t + nfa.stateCount) = 0 :=
    h.closed.between_eq_zero h.start_lt fun lt => Nat.not_lt.mpr (Nat.le_add_left _ _) lt
  rw [between_join h h' once, (between_beside_right h' h'.start_lt).1 ht, away, zero_add]

/-- The states behind a text are those of both automata. -/
theorem mem_run_join : s ∈ (nfa.join part).run word ↔
    s ∈ nfa.run word ∨ ∃ t ∈ part.run word, s = t + nfa.stateCount := by
  rw [(h.join h').mem_run, h.mem_run]
  simp only [h'.mem_run]
  constructor
  · intro walk
    by_cases hs : s < nfa.stateCount
    · rw [between_join_left h h' once hs] at walk
      exact .inl walk
    · have lt : s < nfa.stateCount + part.stateCount := (h.join h').lt_of_walk walk
      obtain ⟨t, rfl⟩ := Nat.exists_eq_add_of_le' (Nat.le_of_not_lt hs)
      rw [between_join_right h h' once (by omega)] at walk
      exact .inr ⟨t, walk, rfl⟩
  · rintro (walk | ⟨t, walk, rfl⟩)
    · rwa [between_join_left h h' once (h.lt_of_walk walk)]
    · rwa [between_join_right h h' once (h'.lt_of_walk walk)]

end Join

/-! ## Slots -/

theorem mem_slots {set : List Nat} {slot : Nat} : slot ∈ nfa.slots set ↔ ∃ s ∈ set, nfa.slot? s = some slot :=
  List.mem_filterMap

theorem slot?_join : (nfa.join part).slot? s = (nfa.slot? s).or
    (((part.accepts.map (· + nfa.stateCount)).idxOf? s).map (· + nfa.accepts.length)) :=
  List.findIdx?_append

/-- A state from before keeps its slot. -/
theorem slot?_join_left (hs : s < nfa.stateCount) : (nfa.join part).slot? s = nfa.slot? s := by
  have absent : (part.accepts.map (· + nfa.stateCount)).idxOf? s = none := by
    rw [List.idxOf?_eq_none_iff, List.mem_map]
    rintro ⟨t, -, rfl⟩
    omega
  rw [slot?_join, absent, Option.map_none, Option.or_none]

/-- The end of the part has the next slot. -/
theorem slot?_join_right {accept : Nat} (accepts : part.accepts = [accept])
    (lt : ∀ s ∈ nfa.accepts, s < nfa.stateCount) :
    (nfa.join part).slot? (t + nfa.stateCount) = if t = accept then some nfa.accepts.length else none := by
  have absent : nfa.slot? (t + nfa.stateCount) = none :=
    List.idxOf?_eq_none_iff.mpr fun hs => by
      have := lt _ hs
      omega
  rw [slot?_join, absent, Option.none_or, accepts]
  by_cases ht : t = accept
  · rw [if_pos ht, ht]
    simp
  · rw [if_neg ht]
    simp [Ne.symm ht]

/-- **A text that the part accepts has one slot more behind it.** -/
theorem mem_slots_join (h : nfa.IsClosed) (h' : part.IsClosed) (once : between nfa.exits nfa.start nfa.start = 1)
    {accept slot : Nat} (accepts : part.accepts = [accept]) (lt : ∀ s ∈ nfa.accepts, s < nfa.stateCount) :
    slot ∈ (nfa.join part).slots ((nfa.join part).run word) ↔
      slot ∈ nfa.slots (nfa.run word) ∨ accept ∈ part.run word ∧ slot = nfa.accepts.length := by
  simp only [mem_slots, mem_run_join h h' once]
  constructor
  · rintro ⟨s, hs | ⟨t, ht, rfl⟩, hslot⟩
    · rw [slot?_join_left (h.lt_of_walk (h.mem_run.mp hs))] at hslot
      exact .inl ⟨s, hs, hslot⟩
    · rw [slot?_join_right accepts lt] at hslot
      obtain ⟨rfl, same⟩ := Option.ite_none_right_eq_some.mp hslot
      exact .inr ⟨ht, (Option.some.inj same).symm⟩
  · rintro (⟨s, hs, hslot⟩ | ⟨ht, rfl⟩)
    · exact ⟨s, .inl hs, (slot?_join_left (h.lt_of_walk (h.mem_run.mp hs))).trans hslot⟩
    · exact ⟨_, .inr ⟨accept, ht, rfl⟩, by rw [slot?_join_right accepts lt, if_pos rfl]⟩

/-! ## All parts -/

/-- What holds of the automaton that is merged of some parts. -/
structure IsMerged (parts : List Nfa) (nfa : Nfa) : Prop where
  closed : nfa.IsClosed
  labelled : nfa.IsLabelled
  once : between nfa.exits nfa.start nfa.start = 1
  accepts_lt : ∀ s ∈ nfa.accepts, s < nfa.stateCount
  length_accepts : nfa.accepts.length = parts.length
  /-- The slots behind a text are the numbers of the parts that accept it. -/
  mem_slots : ∀ word slot, slot ∈ nfa.slots (nfa.run word) ↔
    ∃ part, parts[slot]? = some part ∧ part.accepts? word = true
  /-- What can be read is what can be read in some part. -/
  reads : ∀ word, word ≠ [] → ((∃ t, t ∈ nfa.run word) ↔ ∃ part ∈ parts, ∃ t, t ∈ part.run word)

theorem isMerged_initial : IsMerged [] initial := by
  have exits : initial.exits 0 = [] := rfl
  have closed : initial.IsClosed := ⟨⟨Nat.zero_lt_one, nofun⟩, nofun⟩
  refine ⟨closed, nofun, between_self_of_eq_nil exits, nofun, rfl, fun word slot => ?_, fun word ne => ?_⟩
  · rw [mem_slots]
    exact iff_of_false (fun ⟨_, _, h⟩ => nomatch h) fun ⟨_, h, _⟩ => nomatch h
  · -- nothing leaves the start, so nothing is read
    refine iff_of_false ?_ fun ⟨_, h, _⟩ => absurd h List.not_mem_nil
    rintro ⟨s, hs⟩
    have walk := closed.mem_run.mp hs
    cases walk with
    | stay _ => exact ne rfl
    | skip edge _ => cases edge
    | read edge _ _ => cases edge

/-- **A step**: one more part. -/
theorem IsMerged.join {parts : List Nfa} {accept : Nat} (h : IsMerged parts nfa) (h' : part.IsTrim accept) :
    IsMerged (parts ++ [part]) (nfa.join part) where
  closed := h.closed.join h'.closed
  labelled := h.labelled.join h'.labelled
  once := (between_join_left h.closed h'.closed h.once h.closed.start_lt).trans h.once
  accepts_lt s hs := by
    rw [stateCount_join]
    rcases List.mem_append.mp hs with hs | hs
    · exact Nat.lt_of_lt_of_le (h.accepts_lt s hs) (Nat.le_add_right _ _)
    · obtain ⟨t, ht, rfl⟩ := List.mem_map.mp hs
      rw [h'.accepts, List.mem_singleton] at ht
      have lt := h'.accept_lt
      omega
  length_accepts := by
    rw [Nfa.join, List.length_append, List.length_map, h'.accepts, List.length_append, h.length_accepts]
    rfl
  mem_slots word slot := by
    have new : part.accepts? word = true ↔ accept ∈ part.run word := by
      rw [h'.closed.mem_run, ← h'.closed.language_eq_between h'.accepts]
      rfl
    rw [mem_slots_join h.closed h'.closed h.once h'.accepts h.accepts_lt, h.mem_slots, h.length_accepts, ← new]
    constructor
    · rintro (⟨q, hq, accepts⟩ | ⟨accepts, rfl⟩)
      · exact ⟨q, by rw [List.getElem?_append_left (List.getElem?_eq_some_iff.mp hq).1, hq], accepts⟩
      · exact ⟨part, List.getElem?_concat_length, accepts⟩
    · rintro ⟨q, hq, accepts⟩
      by_cases lt : slot < parts.length
      · rw [List.getElem?_append_left lt] at hq
        exact .inl ⟨q, hq, accepts⟩
      · have le := (List.getElem?_eq_some_iff.mp hq).1
        rw [List.length_append, List.length_singleton] at le
        obtain rfl : slot = parts.length := by omega
        rw [List.getElem?_concat_length] at hq
        cases hq
        exact .inr ⟨accepts, rfl⟩
  reads word ne := by
    have split : (∃ s, s ∈ (nfa.join part).run word) ↔ (∃ s, s ∈ nfa.run word) ∨ ∃ t, t ∈ part.run word := by
      simp only [mem_run_join h.closed h'.closed h.once, exists_or]
      exact or_congr_right ⟨fun ⟨_, t, ht, _⟩ => ⟨t, ht⟩, fun ⟨t, ht⟩ => ⟨_, t, ht, rfl⟩⟩
    rw [split, h.reads word ne]
    simp only [List.mem_append, List.mem_singleton, or_and_right, exists_or, exists_eq_left]

/-- **The merged automaton.** -/
theorem isMerged_merge {parts : List Nfa} (h : ∀ part ∈ parts, ∃ accept, part.IsTrim accept) :
    IsMerged parts (merge parts) := by
  induction parts using List.reverseRecOn with
  | nil => exact isMerged_initial
  | append_singleton parts part ih =>
    have others := ih fun part hpart => h part (List.mem_append_left _ hpart)
    obtain ⟨accept, trim⟩ := h part (List.mem_append_right _ (List.mem_singleton.mpr rfl))
    rw [merge, List.foldl_append]
    exact others.join trim

end Nfa
end TableParsing
