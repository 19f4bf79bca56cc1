import Mathlib.Algebra.GroupWithZero.Nat
import Mathlib.Data.List.GetD
import Mathlib.Data.List.Sort
import TableParsing.Proofs.Lr.Items

/-! # Sets of terminals in words

A `WordVector` is a set of terminals in words of 64 digits: the digit of `t` is digit `t % 64` of word `t / 64`.
Vectors are as long as they have to be, an insertion or a union appends the words that are missing.  Whether anything is
new is found out on the way, for an insertion from one digit and for a union from one word after the other.

A vector **shows** a set when it has as many words and the same digits.  All that is done to the one can be done to the
other, and vectors are equal when the sets are (`Shows.eq_iff`). -/

namespace TableParsing

/-- A set of terminals in words of 64 digits. -/
structure WordVector where
  words : List (BitVec 64)
deriving DecidableEq, Repr

namespace WordVector

/-- The word with nothing but the digit at a place. -/
def digit (place : Nat) : BitVec 64 := 1#64 <<< place

/-- Whether a word has the digit at a place. -/
def hasDigit (word : BitVec 64) (place : Nat) : Bool := word &&& digit place != 0#64

/-- The vector without digits for `terminals` terminals. -/
def ofSize (terminals : Nat) : WordVector := ⟨List.replicate ((terminals + 63) / 64) 0#64⟩

variable (vector other : WordVector)

/-- The vector with words without digits appended until there are at least `count`. -/
def extend (count : Nat) : WordVector :=
  ⟨vector.words ++ List.replicate (count - vector.words.length) 0#64⟩

/-- Whether `t` is a member. -/
def contains (t : Nat) : Bool := vector.words[t / 64]?.any (hasDigit · (t % 64))

/-- The vector with `t`, and whether `t` is new. -/
def insert (t : Nat) : WordVector × Bool :=
  let words := (vector.extend (t / 64 + 1)).words
  (⟨words.modify (t / 64) (· ||| digit (t % 64))⟩, !hasDigit (words.getD (t / 64) 0#64) (t % 64))

/-- Adds words to words as far as both go, and tells whether any of them changes. -/
def mergeWords : (words theirs : List (BitVec 64)) → List (BitVec 64) × Bool
  | word :: words, their :: theirs =>
    let (rest, changed) := mergeWords words theirs
    let merged := word ||| their
    (merged :: rest, merged != word || changed)
  | words, _ => (words, false)

/-- The vector with the members of `other`, and whether any of them is new. -/
def union : WordVector × Bool :=
  let (words, changed) := mergeWords (vector.extend other.words.length).words other.words
  (⟨words⟩, changed)

/-- The number of members, counted word by word. -/
def count : Nat := (vector.words.map fun word => word.cpop.toNat).sum

/-- The members of the word at a position. -/
def membersAt (word : BitVec 64) (position : Nat) : List Nat :=
  ((List.range 64).filter (hasDigit word)).map (position * 64 + ·)

/-- The members, listed word by word. -/
def members : List Nat := vector.words.zipIdx.flatMap fun (word, position) => membersAt word position

/-! ## Digits -/

variable {vector other} {word : BitVec 64} {place t u : Nat}

theorem hasDigit_eq (hp : place < 64) : hasDigit word place = word.getLsbD place := by
  rw [hasDigit, digit, ← BitVec.twoPow_eq, BitVec.and_twoPow]
  have some : BitVec.twoPow 64 place ≠ 0#64 := fun none => by
    have digits := congrArg (·.getLsbD place) none
    simp [hp] at digits
  cases word.getLsbD place <;> simp [some]

theorem getLsbD_digit (hp : place < 64) (u : Nat) : (digit place).getLsbD u = decide (u = place) := by
  rw [digit, ← BitVec.twoPow_eq, BitVec.getLsbD_twoPow, decide_eq_true hp, Bool.true_and]
  exact decide_eq_decide.mpr eq_comm

theorem mod_lt (t : Nat) : t % 64 < 64 := Nat.mod_lt t (by decide)

/-- A word that is missing is one without digits. -/
theorem contains_eq (vector : WordVector) (t : Nat) :
    vector.contains t = (vector.words.getD (t / 64) 0#64).getLsbD (t % 64) := by
  rw [contains, List.getD_eq_getElem?_getD]
  cases vector.words[t / 64]? with
  | none => rw [Option.any_none, Option.getD_none, BitVec.getLsbD_zero]
  | some word => rw [Option.any_some, Option.getD_some, hasDigit_eq (mod_lt t)]

/-- Numbers are the same when they have the same word and the same place in it. -/
theorem eq_iff_div_mod : t = u ↔ t / 64 = u / 64 ∧ t % 64 = u % 64 := by omega

/-- Vectors of the same length are their members. -/
theorem ext_of_contains (length : vector.words.length = other.words.length)
    (h : ∀ t, vector.contains t = other.contains t) : vector = other := by
  obtain ⟨words⟩ := vector
  obtain ⟨words'⟩ := other
  congr 1
  refine List.ext_getElem length fun i hi hi' => BitVec.eq_of_getLsbD_eq fun place hp => ?_
  have here := h (i * 64 + place)
  have position : (i * 64 + place) / 64 = i := by omega
  have digit : (i * 64 + place) % 64 = place := by omega
  rw [contains_eq, contains_eq, position, digit, List.getD_eq_getElem _ _ hi, List.getD_eq_getElem _ _ hi'] at here
  exact here

/-! ## Operations -/

theorem contains_ofSize (terminals t : Nat) : (ofSize terminals).contains t = false := by
  rw [contains_eq, ofSize, List.getD_eq_getElem?_getD, List.getElem?_replicate]
  split <;> exact BitVec.getLsbD_zero

theorem length_extend (vector : WordVector) (count : Nat) :
    (vector.extend count).words.length = max vector.words.length count := by
  rw [extend, List.length_append, List.length_replicate]
  omega

theorem getD_extend (vector : WordVector) (count i : Nat) :
    (vector.extend count).words.getD i 0#64 = vector.words.getD i 0#64 := by
  rw [extend, List.getD_eq_getElem?_getD, List.getD_eq_getElem?_getD, List.getElem?_append]
  split
  · rfl
  · rename_i behind
    rw [List.getElem?_replicate, List.getElem?_eq_none (Nat.le_of_not_lt behind)]
    split <;> rfl

theorem contains_extend (vector : WordVector) (count t : Nat) :
    (vector.extend count).contains t = vector.contains t := by
  rw [contains_eq, getD_extend, contains_eq]

theorem length_insert (vector : WordVector) (t : Nat) :
    (vector.insert t).1.words.length = max vector.words.length (t / 64 + 1) := by
  rw [insert, List.length_modify, length_extend]

theorem contains_insert : (vector.insert u).1.contains t ↔ vector.contains t ∨ t = u := by
  have inside : u / 64 < (vector.extend (u / 64 + 1)).words.length := by rw [length_extend]; omega
  rw [← contains_extend vector (u / 64 + 1), contains_eq, contains_eq, insert, List.getD_eq_getElem?_getD,
    List.getElem?_modify]
  by_cases same : u / 64 = t / 64
  · rw [← same, List.getElem?_eq_getElem inside, List.getD_eq_getElem _ _ inside]
    simp only [if_true, Option.map_eq_map, Option.map_some, Option.getD_some, BitVec.getLsbD_or,
      getLsbD_digit (mod_lt u), Bool.or_eq_true, decide_eq_true_eq]
    exact or_congr Iff.rfl ⟨fun h => eq_iff_div_mod.mpr ⟨same.symm, h⟩, fun h => h ▸ rfl⟩
  · have differ : t ≠ u := fun h => same (h ▸ rfl)
    simp only [if_neg same, Option.map_eq_map, Option.map_id_fun', id_eq]
    rw [← List.getD_eq_getElem?_getD, or_iff_left differ]

/-- An insertion brings something new if the digit was missing. -/
theorem insert_snd (vector : WordVector) (t : Nat) : (vector.insert t).2 = !vector.contains t := by
  rw [insert, hasDigit_eq (mod_lt t), getD_extend, contains_eq]

theorem length_mergeWords (words theirs : List (BitVec 64)) : (mergeWords words theirs).1.length = words.length := by
  fun_induction mergeWords words theirs with
  | case1 word words their theirs rest changed eq merged ih =>
    rw [eq] at ih
    rw [List.length_cons, List.length_cons, ih]
  | case2 => rfl

theorem getD_mergeWords {words theirs : List (BitVec 64)} (h : theirs.length ≤ words.length) (i : Nat) :
    (mergeWords words theirs).1.getD i 0#64 = words.getD i 0#64 ||| theirs.getD i 0#64 := by
  fun_induction mergeWords words theirs generalizing i with
  | case1 word words their theirs rest changed eq merged ih =>
    rw [eq] at ih
    cases i with
    | zero => rfl
    | succ i => exact ih (Nat.le_of_succ_le_succ h) i
  | case2 theirs words short =>
    have empty : theirs = [] := by
      cases theirs with
      | nil => rfl
      | cons their theirs =>
        cases words with
        | nil => cases h
        | cons word words => exact (short word words their theirs rfl rfl).elim
    rw [empty, List.getD_nil]
    exact (BitVec.or_zero).symm

/-- A union changes no word if all digits are there. -/
theorem mergeWords_snd_eq_false_iff {words theirs : List (BitVec 64)} :
    (mergeWords words theirs).2 = false ↔ (mergeWords words theirs).1 = words := by
  fun_induction mergeWords words theirs with
  | case1 word words their theirs rest changed eq merged ih =>
    rw [eq] at ih
    rw [Bool.or_eq_false_iff, bne_eq_false_iff_eq, ih, List.cons.injEq]
  | case2 => exact iff_of_true rfl rfl

theorem length_union (vector other : WordVector) :
    (vector.union other).1.words.length = max vector.words.length other.words.length :=
  (length_mergeWords _ _).trans (length_extend _ _)

theorem contains_union (vector other : WordVector) (t : Nat) :
    (vector.union other).1.contains t = (vector.contains t || other.contains t) := by
  have long : other.words.length ≤ (vector.extend other.words.length).words.length := by rw [length_extend]; omega
  rw [contains_eq, contains_eq, contains_eq]
  have word : (vector.union other).1.words.getD (t / 64) 0#64 =
      vector.words.getD (t / 64) 0#64 ||| other.words.getD (t / 64) 0#64 := by
    rw [← getD_extend vector other.words.length]
    exact getD_mergeWords long (t / 64)
  rw [word, BitVec.getLsbD_or]

/-- A union brings something new if `other` has a member that is not there. -/
theorem union_snd_eq_false_iff : (vector.union other).2 = false ↔ ∀ t, other.contains t → vector.contains t := by
  have unchanged : (vector.union other).2 = false ↔ (vector.union other).1 = vector.extend other.words.length :=
    mergeWords_snd_eq_false_iff.trans (WordVector.mk.injEq _ _ ▸ Iff.rfl)
  rw [unchanged]
  constructor
  · intro same t ht
    rw [← contains_extend vector other.words.length, ← same, contains_union, ht, Bool.or_true]
  · intro h
    refine ext_of_contains ((length_union _ _).trans (length_extend _ _).symm) fun t => ?_
    rw [contains_union, contains_extend, Bool.eq_iff_iff, Bool.or_eq_true]
    exact or_iff_left_of_imp (h t)

/-! ## Members -/

theorem mem_membersAt {position : Nat} : t ∈ membersAt word position ↔ t / 64 = position ∧ word.getLsbD (t % 64) := by
  rw [membersAt, List.mem_map]
  constructor
  · rintro ⟨place, hm, rfl⟩
    obtain ⟨hp, digit⟩ := List.mem_filter.mp hm
    have hp := List.mem_range.mp hp
    rw [hasDigit_eq hp] at digit
    refine ⟨by omega, ?_⟩
    rwa [show (position * 64 + place) % 64 = place by omega]
  · rintro ⟨rfl, digit⟩
    refine ⟨t % 64, List.mem_filter.mpr ⟨List.mem_range.mpr (mod_lt t), ?_⟩, by omega⟩
    rwa [hasDigit_eq (mod_lt t)]

theorem mem_members : t ∈ vector.members ↔ vector.contains t := by
  rw [members, List.mem_flatMap, contains_eq, List.getD_eq_getElem?_getD]
  constructor
  · rintro ⟨⟨word, position⟩, hw, hm⟩
    obtain ⟨rfl, digit⟩ := mem_membersAt.mp hm
    rwa [List.mem_zipIdx_iff_getElem?.mp hw]
  · intro h
    cases hw : vector.words[t / 64]? with
    | none =>
      rw [hw, Option.getD_none, BitVec.getLsbD_zero] at h
      cases h
    | some word =>
      rw [hw] at h
      exact ⟨(word, t / 64), List.mem_zipIdx_iff_getElem?.mpr hw, mem_membersAt.mpr ⟨rfl, h⟩⟩

theorem pairwise_membersAt (word : BitVec 64) (position : Nat) : (membersAt word position).Pairwise (· < ·) :=
  List.pairwise_map.mpr ((List.pairwise_lt_range.filter _).imp fun h => Nat.add_lt_add_left h _)

/-- The members are listed in ascending order. -/
theorem pairwise_members (vector : WordVector) : vector.members.Pairwise (· < ·) := by
  rw [members, List.pairwise_flatMap]
  refine ⟨fun _ _ => pairwise_membersAt _ _, ?_⟩
  have positions : vector.words.zipIdx.Pairwise fun a b => a.2 < b.2 := by
    rw [← List.pairwise_map, List.zipIdx_map_snd]
    exact List.pairwise_lt_range'
  refine positions.imp fun before t ht u hu => ?_
  obtain ⟨position, -⟩ := mem_membersAt.mp ht
  obtain ⟨position', -⟩ := mem_membersAt.mp hu
  omega

theorem toNat_cpop (word : BitVec 64) : word.cpop.toNat = ((List.range 64).filter (hasDigit word)).length := by
  have digits (n : Nat) : word.cpopNatRec n 0 = ((List.range n).filter (word.getLsbD ·)).length := by
    induction n with
    | zero => rfl
    | succ n ih =>
      rw [BitVec.cpopNatRec_succ, BitVec.cpopNatRec_add, ih, List.range_succ, List.filter_append, List.length_append]
      cases hd : word.getLsbD n <;> simp [hd]
  rw [BitVec.toNat_cpop, digits]
  exact congrArg List.length (List.filter_congr fun place hp => (hasDigit_eq (List.mem_range.mp hp)).symm)

theorem count_eq (vector : WordVector) : vector.count = vector.members.length := by
  have lengths (words : List (BitVec 64)) (start : Nat) : (words.map fun word => word.cpop.toNat).sum =
      ((words.zipIdx start).map fun pair => (membersAt pair.1 pair.2).length).sum := by
    induction words generalizing start with
    | nil => rfl
    | cons word words ih =>
      rw [List.map_cons, List.sum_cons, List.zipIdx_cons, List.map_cons, List.sum_cons, ← ih, toNat_cpop, membersAt,
        List.length_map]
  rw [count, members, List.length_flatMap]
  exact lengths vector.words 0

/-! ## Vectors and sets -/

/-- Whether a vector has the words and the digits of a set. -/
structure Shows (vector : WordVector) (set : TerminalSet) : Prop where
  length_eq : vector.words.length = set.words
  contains_eq : ∀ t, vector.contains t = set.contains t

variable {set set' : TerminalSet}

theorem shows_ofSize (terminals : Nat) : (ofSize terminals).Shows (.ofSize terminals) where
  length_eq := List.length_replicate
  contains_eq t := by rw [contains_ofSize, TerminalSet.contains_ofSize]

namespace Shows

theorem insert (shows : vector.Shows set) (t : Nat) : (vector.insert t).1.Shows (set.insert t) where
  length_eq := by
    rw [length_insert, shows.length_eq]
    rfl
  contains_eq u := by
    rw [Bool.eq_iff_iff, contains_insert, TerminalSet.contains_insert, shows.contains_eq]

theorem union (shows : vector.Shows set) (shows' : other.Shows set') :
    (vector.union other).1.Shows (set.union set') where
  length_eq := by
    rw [length_union, shows.length_eq, shows'.length_eq]
    rfl
  contains_eq t := by
    rw [Bool.eq_iff_iff, contains_union, TerminalSet.contains_union, Bool.or_eq_true, shows.contains_eq,
      shows'.contains_eq]

/-- Vectors are equal when the sets that they show are. -/
theorem eq_iff (shows : vector.Shows set) (shows' : other.Shows set') : vector = other ↔ set = set' := by
  constructor
  · rintro rfl
    obtain ⟨words, bits⟩ := set
    obtain ⟨words', bits'⟩ := set'
    have words_eq : words = words' := shows.length_eq.symm.trans shows'.length_eq
    have bits_eq : bits = bits' :=
      Nat.eq_of_testBit_eq fun t => (shows.contains_eq t).symm.trans (shows'.contains_eq t)
    rw [words_eq, bits_eq]
  · rintro rfl
    exact ext_of_contains (shows.length_eq.trans shows'.length_eq.symm) fun t =>
      (shows.contains_eq t).trans (shows'.contains_eq t).symm

end Shows
end WordVector
end TableParsing
