import TableParsing.Nfa.Ranked
import TableParsing.Proofs.Nfa.Merge

/-! # Patterns of different rank

The merged automaton of some patterns is in a set behind a text if and only if the text is the front of a word of some
pattern, since no automaton of a pattern has dead ends (`RankedNfa.exists_mem_run_iff`).  **The verdict there is that of
the first pattern for tokens that accepts the text**, and that of the patterns to be ignored only if there is none
(`RankedNfa.verdict_run`). -/

namespace TableParsing

/-- Whether every automaton of the list is that of a pattern. -/
def PatternList.IsBuilt (patterns : PatternList) : Prop := ∀ p ∈ patterns, ∃ source, Nfa.ofPattern source = .ok p.1

namespace RankedNfa

variable {patterns : PatternList} {word : List Char}

theorem mem_rank {p : Nfa × Verdict} : p ∈ rank patterns ↔ p ∈ patterns := by
  rw [rank, List.mem_append, List.mem_filter, List.mem_filter, ← and_or_left, decide_eq_true_iff, decide_eq_true_iff,
    and_iff_left (ne_or_eq _ _)]

/-- The first pattern of a property is looked for among those for tokens at first. -/
theorem find?_rank (f : Nfa × Verdict → Bool) : (rank patterns).find? f =
    (patterns.find? fun p => p.2 ≠ .ignore ∧ f p).or (patterns.find? fun p => p.2 = .ignore ∧ f p) := by
  rw [rank, List.find?_append, List.find?_filter, List.find?_filter]
  simp only [decide_eq_true_eq]

/-- The lowest slot is that of the first pattern that accepts. -/
theorem verdict_eq_find? {slots : List Nat} {ranked : PatternList}
    (h : ∀ slot, slot ∈ slots ↔ ∃ p, ranked[slot]? = some p ∧ p.1.accepts? word = true) :
    (match slots.min? with
      | some slot => (ranked.map Prod.snd).getD slot .reject
      | none => .reject) = ((ranked.find? (·.1.accepts? word)).map Prod.snd).getD .reject := by
  cases hmin : slots.min? with
  | none =>
    have none : ranked.find? (·.1.accepts? word) = none := by
      refine List.find?_eq_none.mpr fun p hp accepts => ?_
      obtain ⟨slot, hslot⟩ := List.mem_iff_getElem?.mp hp
      have mem := (h slot).mpr ⟨p, hslot, accepts⟩
      rw [List.min?_eq_none_iff.mp hmin] at mem
      cases mem
    rw [none]
    rfl
  | some slot =>
    obtain ⟨mem, le⟩ := List.min?_eq_some_iff.mp hmin
    obtain ⟨p, hp, accepts⟩ := (h slot).mp mem
    obtain ⟨lt, there⟩ := List.getElem?_eq_some_iff.mp hp
    have first : ranked.find? (·.1.accepts? word) = some p := by
      refine List.find?_eq_some_iff_getElem.mpr ⟨accepts, slot, lt, there, fun j hj => ?_⟩
      by_contra accepts'
      have mem' := (h j).mpr ⟨_, List.getElem?_eq_getElem (hj.trans lt), by simpa using accepts'⟩
      exact Nat.not_lt.mpr (le j mem') hj
    rw [first]
    change (ranked.map Prod.snd).getD slot .reject = p.2
    rw [List.getD_eq_getElem?_getD, List.getElem?_map, hp]
    rfl

variable (h : patterns.IsBuilt)
include h

theorem exists_isTrim {p : Nfa × Verdict} (hp : p ∈ patterns) : ∃ accept, p.1.IsTrim accept := by
  obtain ⟨source, built⟩ := h p hp
  exact Nfa.exists_isTrim built

theorem isMerged_ofPatterns : Nfa.IsMerged ((rank patterns).map Prod.fst) (ofPatterns patterns).nfa := by
  refine Nfa.isMerged_merge fun part hpart => ?_
  obtain ⟨p, hp, rfl⟩ := List.mem_map.mp hpart
  exact exists_isTrim h (mem_rank.mp hp)

/-- **What has been read is the front of a word.** -/
theorem exists_mem_run_iff (ne : word ≠ []) : (∃ s, s ∈ (ofPatterns patterns).nfa.run word) ↔
    ∃ p ∈ patterns, ∃ rest, p.1.accepts? (word ++ rest) = true := by
  rw [(isMerged_ofPatterns h).reads word ne]
  constructor
  · rintro ⟨part, hpart, s, hs⟩
    obtain ⟨p, hp, rfl⟩ := List.mem_map.mp hpart
    have hp := mem_rank.mp hp
    obtain ⟨accept, trim⟩ := exists_isTrim h hp
    have walk := trim.closed.mem_run.mp hs
    obtain ⟨rest, onward⟩ := trim.leads s (trim.closed.lt_of_walk walk)
    refine ⟨p, hp, rest, ?_⟩
    have accepted : word ++ rest ∈ p.1.language := by
      rw [trim.closed.language_eq_between trim.accepts]
      exact Walk.append walk onward
    exact accepted
  · rintro ⟨p, hp, rest, accepted⟩
    obtain ⟨accept, trim⟩ := exists_isTrim h hp
    have walk : word ++ rest ∈ between p.1.exits p.1.start accept := by
      rw [← trim.closed.language_eq_between trim.accepts]
      exact accepted
    obtain ⟨s, front⟩ := Walk.exists_front walk
    exact ⟨p.1, List.mem_map_of_mem (mem_rank.mpr hp), s, trim.closed.mem_run.mpr front⟩

/-- **The verdict behind a text.** -/
theorem verdict_run (word : List Char) : (ofPatterns patterns).verdict ((ofPatterns patterns).nfa.run word) =
    match patterns.find? fun p => p.2 ≠ .ignore ∧ p.1.accepts? word with
    | some p => p.2
    | none => if patterns.any (·.1.accepts? word) then .ignore else .reject := by
  have slots : ∀ slot, slot ∈ (ofPatterns patterns).nfa.slots ((ofPatterns patterns).nfa.run word) ↔
      ∃ p, (rank patterns)[slot]? = some p ∧ p.1.accepts? word = true := by
    intro slot
    rw [(isMerged_ofPatterns h).mem_slots]
    simp only [List.getElem?_map, Option.map_eq_some_iff]
    constructor
    · rintro ⟨_, ⟨p, hp, rfl⟩, accepts⟩
      exact ⟨p, hp, accepts⟩
    · rintro ⟨p, hp, accepts⟩
      exact ⟨p.1, ⟨p, hp, rfl⟩, accepts⟩
  refine (verdict_eq_find? slots).trans ?_
  rw [find?_rank]
  cases token : patterns.find? fun p => p.2 ≠ .ignore ∧ p.1.accepts? word with
  | some p => rfl
  | none =>
    rw [Option.none_or]
    cases ignored : patterns.find? fun p => p.2 = .ignore ∧ p.1.accepts? word with
    | some p =>
      obtain ⟨ignore, accepts⟩ : p.2 = .ignore ∧ p.1.accepts? word = true := by
        simpa using List.find?_some ignored
      have some : patterns.any (·.1.accepts? word) = true :=
        List.any_eq_true.mpr ⟨p, List.mem_of_find?_eq_some ignored, accepts⟩
      rw [some]
      exact ignore
    | none =>
      have none : patterns.any (·.1.accepts? word) = false := by
        refine List.any_eq_false.mpr fun p hp accepts => ?_
        have notToken := List.find?_eq_none.mp token p hp
        have notIgnored := List.find?_eq_none.mp ignored p hp
        simp only [accepts, and_true, decide_eq_true_eq] at notToken notIgnored
        exact notToken notIgnored
      rw [none]
      rfl

end RankedNfa
end TableParsing
