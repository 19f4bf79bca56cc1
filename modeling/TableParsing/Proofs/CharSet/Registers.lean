import Mathlib.Data.List.Induction
import Mathlib.Order.Interval.Set.UnorderedInterval
import TableParsing.Proofs.CharSet.Elementary
import TableParsing.Proofs.CharSet.Gapped
import TableParsing.Proofs.CharSet.Search

/-! # Sets in registers

Numbered registers hold sets, all of them empty at first, and **commands** change the sets one after the other.  To the
characters in the registers a command does what its name says in the algebra of sets (`Command.apply`), and that says all
there is to know of the sets: whatever was run, **each register holds ascending ranges with just these characters**, in
which bisection finds its way (`represents_run`).

Two commands may leave ranges that touch: the alignment of two sets, and an insertion that keeps its neighbours apart.  All
others **melt**, so without those two a register holds the longest runs of its characters, and sets with the same
characters are equal however they came about (`eq_iff_of_melting`). -/

namespace TableParsing

theorem CharRange.mem_between {a b c : Char} : c ∈ CharRange.between a b ↔ c ∈ Set.uIcc a b := by
  rw [CharRange.between]
  split
  · rename_i le
    rw [Set.uIcc_of_le le]
    rfl
  · rename_i gt
    rw [Set.uIcc_of_ge (le_of_not_ge gt)]
    rfl

namespace CharSet

/-- A change to the sets in registers, which have numbers. -/
inductive Command where
  | insertChar (target : Nat) (c : Char)
  /-- Inserts the characters between two, in either order; without `melting`, neighbours stay ranges of their own. -/
  | insertBetween (target : Nat) (a b : Char) (melting : Bool)
  /-- Adds the characters of another set to the target. -/
  | union (target other : Nat)
  | diff (target set other : Nat)
  | complement (target set : Nat)
  /-- Cuts two sets at the boundaries of either. -/
  | align (set other : Nat)
deriving DecidableEq

/-- The sets in the registers after a command. -/
def Command.run (sets : Nat → CharSet) : Command → Nat → CharSet
  | .insertChar target c => Function.update sets target ((sets target).insertChar c)
  | .insertBetween target a b melting =>
    let r := CharRange.between a b
    Function.update sets target (if melting then (sets target).insert r else (sets target).insertApart r)
  | .union target other => Function.update sets target ((sets target).union (sets other))
  | .diff target set other => Function.update sets target ((sets set).diff (sets other))
  | .complement target set => Function.update sets target (sets set).complement
  | .align set other =>
    let pieces := (sets set).align (sets other)
    Function.update (Function.update sets set pieces.1) other pieces.2

/-- The characters in the registers after a command. -/
def Command.apply (chars : Nat → Set Char) : Command → Nat → Set Char
  | .insertChar target c => Function.update chars target (chars target ∪ {c})
  | .insertBetween target a b _ => Function.update chars target (chars target ∪ Set.uIcc a b)
  | .union target other => Function.update chars target (chars target ∪ chars other)
  | .diff target set other => Function.update chars target (chars set \ chars other)
  | .complement target set => Function.update chars target ({c | c ≠ '\x00'} \ chars set)
  | .align _ _ => chars

/-- The sets in the registers after all commands of a script. -/
def run (script : List Command) : Nat → CharSet := script.foldl Command.run fun _ => empty

/-- The characters in the registers after all commands of a script. -/
def charsAfter (script : List Command) : Nat → Set Char := script.foldl Command.apply fun _ => ∅

variable {sets : Nat → CharSet} {chars : Nat → Set Char} {set other : CharSet} {c : Char} {i : Nat}

/-! ## Characters -/

theorem mem_any : c ∈ any ↔ c ≠ '\x00' := by
  have first : '\x01' ≤ c ↔ '\x00' < c := le_iff_of_succ? (by decide)
  have least : '\x00' ≤ c := le_of_predChar?_eq_none (by decide)
  have last : c ≤ Char.ofNat 0x10FFFF := le_of_succ?_eq_none (by decide)
  rw [any, between, mem_insert, CharRange.mem_between, Set.uIcc_of_le (by decide), Set.mem_Icc, first, least.lt_iff_ne]
  simp only [last, and_true, not_mem_empty, or_false, ne_comm]

theorem mem_complement (h : set.WellFormed) : c ∈ set.complement ↔ c ≠ '\x00' ∧ c ∉ set := by
  rw [complement, mem_diff h, mem_any]

/-- Whether the registers hold well-formed sets with the given characters. -/
def Holds (sets : Nat → CharSet) (chars : Nat → Set Char) : Prop :=
  ∀ i, (sets i).WellFormed ∧ ∀ c, c ∈ sets i ↔ c ∈ chars i

/-- One register is changed at a time. -/
theorem Holds.update {all : Set Char} (h : Holds sets chars) (i : Nat) (wellFormed : set.WellFormed)
    (mem : ∀ c, c ∈ set ↔ c ∈ all) : Holds (Function.update sets i set) (Function.update chars i all) := by
  intro j
  by_cases same : j = i
  · subst same
    simpa using ⟨wellFormed, mem⟩
  · simpa [same] using h j

/-- **A command does to the sets what it does to their characters.** -/
theorem Holds.run (h : Holds sets chars) (command : Command) : Holds (command.run sets) (command.apply chars) := by
  have mem : ∀ i c, c ∈ sets i ↔ c ∈ chars i := fun i => (h i).2
  cases command with
  | insertChar target c =>
    refine h.update target ((h target).1.insertChar c) fun d => ?_
    rw [mem_insertChar, mem, Set.mem_union, Set.mem_singleton_iff, or_comm]
  | insertBetween target a b melting =>
    have inserted : ∀ d, d ∈ CharRange.between a b ∨ d ∈ sets target ↔ d ∈ chars target ∪ Set.uIcc a b := fun d => by
      rw [CharRange.mem_between, mem, Set.mem_union, or_comm]
    cases melting with
    | true => exact h.update target ((h target).1.insert _) fun d => mem_insert.trans (inserted d)
    | false => exact h.update target ((h target).1.insertApart _) fun d => mem_insertApart.trans (inserted d)
  | union target other =>
    refine h.update target ((h target).1.union (sets other)) fun d => ?_
    rw [mem_union, mem, mem, Set.mem_union]
  | diff target set other =>
    refine h.update target ((h set).1.diff (h other).1) fun d => ?_
    rw [mem_diff (h other).1, mem, mem, Set.mem_sdiff]
  | complement target set =>
    refine h.update target (h set).1.complement fun d => ?_
    rw [mem_complement (h set).1, mem, Set.mem_sdiff, Set.mem_ofPred_eq]
  | align set other =>
    have aligned := aligned_align (h set).1 (h other).1
    have first := h.update set aligned.columns_wellFormed fun d => (aligned.mem_columns d).trans (mem set d)
    have both := first.update other aligned.label_wellFormed fun d => (aligned.mem_label d).trans (mem other d)
    rw [Function.update_eq_self, Function.update_eq_self] at both
    exact both

theorem holds_run (script : List Command) : Holds (run script) (charsAfter script) := by
  induction script using List.reverseRecOn with
  | nil => exact fun i => ⟨wellFormed_empty, fun c => iff_of_false not_mem_empty (Set.notMem_empty c)⟩
  | append_singleton script command ih =>
    rw [CharSet.run, charsAfter, List.foldl_append, List.foldl_append]
    exact ih.run command

/-- A set of ranges for some characters: the ranges ascend, none of them is empty, and the set contains these characters
and no others.  Bisection finds the range of a character and the place of a new range. -/
structure Represents (set : CharSet) (chars : Set Char) : Prop where
  lo_le_hi : ∀ r ∈ set.ranges, r.lo ≤ r.hi
  ascending : set.ranges.Pairwise fun r s => r.hi < s.lo
  contains_iff : ∀ c, set.contains c = true ↔ c ∈ chars
  searchable : set.Searchable

/-- **Whatever commands are run, the sets have the characters that set algebra says.** -/
theorem represents_run (script : List Command) (i : Nat) : (run script i).Represents (charsAfter script i) := by
  obtain ⟨wellFormed, mem⟩ := holds_run script i
  exact {
    lo_le_hi := fun r _ => r.lo_le_hi
    ascending := wellFormed
    contains_iff := fun c => contains_iff.trans (mem c)
    searchable := wellFormed.searchable }

/-! ## Melting -/

/-- Whether a command makes one range of ranges that touch. -/
def Command.Melts : Command → Prop
  | .insertBetween _ _ _ melting => melting = true
  | .align _ _ => False
  | _ => True

theorem gapped_update (h : ∀ i, Gapped (sets i).ranges) (gapped : Gapped set.ranges) (i j : Nat) :
    Gapped (Function.update sets i set j).ranges := by
  by_cases same : j = i
  · subst same
    simpa using gapped
  · simpa [same] using h j

/-- A melting command leaves gaps between all ranges. -/
theorem Command.Melts.gapped {command : Command} (melts : command.Melts) (h : ∀ i, Gapped (sets i).ranges) (i : Nat) :
    Gapped (command.run sets i).ranges := by
  cases command with
  | insertChar target c => exact gapped_update h (gapped_insert (h target) _) target i
  | insertBetween target a b melting =>
    obtain rfl : melting = true := melts
    exact gapped_update h (gapped_insert (h target) _) target i
  | union target other => exact gapped_update h (gapped_union (h target) _) target i
  | diff target set other => exact gapped_update h (gapped_diff (h set) (h other).ascending) target i
  | complement target set => exact gapped_update h (gapped_complement (h set).ascending) target i
  | align => exact melts.elim

theorem gapped_run {script : List Command} (melting : ∀ command ∈ script, command.Melts) (i : Nat) :
    Gapped (run script i).ranges := by
  induction script using List.reverseRecOn generalizing i with
  | nil => exact List.Pairwise.nil
  | append_singleton script command ih =>
    rw [CharSet.run, List.foldl_append]
    have earlier : ∀ command ∈ script, command.Melts := fun command h => melting command (List.mem_append_left _ h)
    exact (melting command (by simp)).gapped (ih earlier) i

/-- **Sets that were made by melting are equal just if they have the same characters**, and no two of their ranges
touch. -/
theorem eq_iff_of_melting {script script' : List Command} (melting : ∀ command ∈ script, command.Melts)
    (melting' : ∀ command ∈ script', command.Melts) (i j : Nat) :
    (run script i = run script' j ↔ ∀ c, (run script i).contains c = (run script' j).contains c) ∧
    ∀ r ∈ (run script i).ranges, ∀ s ∈ (run script i).ranges, r ≠ s → r.touches s = false := by
  have gapped := gapped_run melting i
  constructor
  · constructor
    · intro same c
      rw [same]
    · intro same
      apply eq_of_gapped gapped (gapped_run melting' j)
      intro c
      rw [← contains_iff, ← contains_iff, same c]
  · exact (gapped_iff.mp gapped).2

/-- Two characters on either side of the surrogates are one range, as is what is left when all others are taken away. -/
theorem eq_iff_of_melting_surrogates :
    let script : List Command := [.insertChar 0 '\ud7ff', .insertChar 0 '\ue000']
    let script' : List Command := [.complement 1 0, .insertBetween 2 '\x01' '\ud7fe' true,
      .insertBetween 2 (Char.ofNat 0x10ffff) '\ue001' true, .diff 1 1 2]
    (∀ command ∈ script, command.Melts) ∧ (∀ command ∈ script', command.Melts) ∧
    run script 0 = run script' 1 ∧ ∀ c, (run script 0).contains c = (run script' 1).contains c := by
  intro script script'
  have melting : ∀ command ∈ script, command.Melts := by simp [script, Command.Melts]
  have melting' : ∀ command ∈ script', command.Melts := by simp [script', Command.Melts]
  have same : run script 0 = run script' 1 := by cbv
  exact ⟨melting, melting', same, (eq_iff_of_melting melting melting' 0 1).1.mp same⟩

end CharSet
end TableParsing
