import Mathlib.Data.Finset.Card
import TableParsing.Proofs.Lr.Collection
import TableParsing.Proofs.Lr.WordVector

/-! # What insertions and unions make

A set of terminals is created for a number of terminals, and then terminals are inserted into it and other sets united
with it.  All of this is its **making**.  The same making gives a terminal set, a vector of words and a finite set of
numbers, and **all of them agree** (`isFaithful`): set and vector tell the members, and an insertion or a union reports
something new when the members become more.  Whatever numbered sets hold after a sequence of insertions and unions has
a making (`make_run`), so nothing needs to be said of the sequence itself.

Words are appended but never taken away.  So a set has as many words as the widest set that came into it, also if that
was an empty one (`words_le_iff`), and sets with the same members may differ in words.  Sets that are **regular** for
a number of terminals do not differ in them, and keys made of such sets do not depend on an order. -/

namespace TableParsing

/-- Sets of terminals, as far as they are made. -/
structure SetAlgebra (α : Type) where
  /-- The set without members, created for a number of terminals. -/
  ofSize : (terminals : Nat) → α
  /-- The set with a terminal. -/
  insert : α → (t : Nat) → α
  /-- The set with the members of another one. -/
  union : α → α → α

/-- How a set was made: how it was created, and what came into it, another set with the making that it had then. -/
inductive Making
  | ofSize (terminals : Nat)
  | insert (made : Making) (t : Nat)
  | union (made other : Making)
deriving DecidableEq, Repr

/-- A step of a sequence of insertions and unions on numbered sets. -/
inductive Command
  /-- Inserts `t` into the set `target`. -/
  | insert (target t : Nat)
  /-- Unites the set `target` with the set `source`. -/
  | union (target source : Nat)
deriving DecidableEq, Repr

namespace SetAlgebra

/-- Terminal sets. -/
def sets : SetAlgebra TerminalSet := ⟨.ofSize, .insert, .union⟩

/-- Vectors of words. -/
def vectors : SetAlgebra WordVector :=
  ⟨.ofSize, fun vector t => (vector.insert t).1, fun vector other => (vector.union other).1⟩

/-- Finite sets of numbers. -/
def numbers : SetAlgebra (Finset Nat) := ⟨fun _ => ∅, fun members t => Insert.insert t members, (· ∪ ·)⟩

/-- For how many terminals a set was created. -/
def sizes : SetAlgebra Nat := ⟨id, fun size _ => size, fun size _ => size⟩

/-- For how many terminals a set and all that came into it were created. -/
def creations : SetAlgebra (List Nat) := ⟨fun terminals => [terminals], fun sizes _ => sizes, (· ++ ·)⟩

/-- Makings themselves. -/
def makings : SetAlgebra Making := ⟨.ofSize, .insert, .union⟩

variable {α : Type} (algebra : SetAlgebra α)

/-- The numbered sets after a step. -/
def step (sets : Nat → α) : Command → Nat → α
  | .insert target t => Function.update sets target (algebra.insert (sets target) t)
  | .union target source => Function.update sets target (algebra.union (sets target) (sets source))

/-- The numbered sets after a sequence of steps, if the set `r` was created for `sizes r` terminals. -/
def run (sizes : Nat → Nat) (commands : List Command) : Nat → α :=
  commands.foldl algebra.step fun r => algebra.ofSize (sizes r)

end SetAlgebra

namespace Making

/-- What a making makes. -/
def make {α : Type} (algebra : SetAlgebra α) : Making → α
  | ofSize terminals => algebra.ofSize terminals
  | insert made t => algebra.insert (made.make algebra) t
  | union made other => algebra.union (made.make algebra) (other.make algebra)

variable {α : Type} (algebra : SetAlgebra α)

theorem make_step (makings : Nat → Making) (command : Command) :
    (fun r => (SetAlgebra.makings.step makings command r).make algebra) =
      algebra.step (fun r => (makings r).make algebra) command := by
  funext r
  cases command with
  | insert target t =>
    rw [SetAlgebra.step, SetAlgebra.step, Function.update_apply, Function.update_apply]
    split <;> rfl
  | union target source =>
    rw [SetAlgebra.step, SetAlgebra.step, Function.update_apply, Function.update_apply]
    split <;> rfl

/-- Each of the numbered sets is what it was made of. -/
theorem make_run (sizes : Nat → Nat) (commands : List Command) :
    (fun r => (SetAlgebra.makings.run sizes commands r).make algebra) = algebra.run sizes commands := by
  have steps (makings : Nat → Making) : (fun r => (commands.foldl SetAlgebra.makings.step makings r).make algebra) =
      commands.foldl algebra.step fun r => (makings r).make algebra := by
    induction commands generalizing makings with
    | nil => rfl
    | cons command commands ih => rw [List.foldl_cons, List.foldl_cons, ih, make_step]
  exact steps _

/-- The terminal set. -/
def set (making : Making) : TerminalSet := making.make .sets

/-- The vector of words. -/
def vector (making : Making) : WordVector := making.make .vectors

/-- The members. -/
def members (making : Making) : Finset Nat := making.make .numbers

/-- For how many terminals the set was created. -/
def size (making : Making) : Nat := making.make .sizes

/-- For how many terminals the set and all that came into it were created. -/
def creations (making : Making) : List Nat := making.make .creations

variable {making other : Making} {terminals t w : Nat}

/-! ## Members -/

theorem contains_set_iff (making : Making) (t : Nat) : making.set.contains t ↔ t ∈ making.members := by
  induction making with
  | ofSize terminals =>
    refine iff_of_false (fun h => ?_) (Finset.notMem_empty t)
    rw [show (ofSize terminals).set = .ofSize terminals from rfl, TerminalSet.contains_ofSize] at h
    cases h
  | insert made u ih =>
    refine TerminalSet.contains_insert.trans ((or_congr ih Iff.rfl).trans ?_)
    exact (or_comm.trans Finset.mem_insert.symm)
  | union made other ih ih' =>
    exact TerminalSet.contains_union.trans ((or_congr ih ih').trans Finset.mem_union.symm)

theorem shows_vector (making : Making) : making.vector.Shows making.set := by
  induction making with
  | ofSize terminals => exact WordVector.shows_ofSize terminals
  | insert made t ih => exact ih.insert t
  | union made other ih ih' => exact ih.union ih'

theorem contains_vector_iff (making : Making) (t : Nat) : making.vector.contains t ↔ t ∈ making.members := by
  rw [making.shows_vector.contains_eq, contains_set_iff]

/-- An insertion brings something new if the members become more. -/
theorem insert_snd_iff (making : Making) (t : Nat) :
    (making.vector.insert t).2 ↔ making.members ⊂ (making.insert t).members := by
  have more : (making.insert t).members = Insert.insert t making.members := rfl
  rw [WordVector.insert_snd, Bool.not_eq_true', Bool.eq_false_iff, ne_eq, contains_vector_iff, more]
  constructor
  · exact Finset.ssubset_insert
  · intro grows ht
    rw [Finset.insert_eq_of_mem ht] at grows
    exact grows.ne rfl

/-- A union brings something new if the members become more. -/
theorem union_snd_iff (making other : Making) :
    (making.vector.union other.vector).2 ↔ making.members ⊂ (making.union other).members := by
  have more : (making.union other).members = making.members ∪ other.members := rfl
  have same : (making.vector.union other.vector).2 = false ↔ other.members ⊆ making.members := by
    simp only [WordVector.union_snd_eq_false_iff, contains_vector_iff]
    rfl
  rw [← Bool.not_eq_false, same, more]
  constructor
  · exact fun new => Finset.subset_union_left.ssubset_of_ne fun h => new (Finset.union_eq_left.mp h.symm)
  · exact fun grows subset => grows.ne (Finset.union_eq_left.mpr subset).symm

/-! ## Words -/

/-- A set has as many words as the widest of the sets that came into it and the last of its members need. -/
theorem words_le_iff (making : Making) (w : Nat) : making.set.words ≤ w ↔
    (∀ n ∈ making.creations, (TerminalSet.ofSize n).words ≤ w) ∧ ∀ t ∈ making.members, t / 64 < w := by
  induction making with
  | ofSize terminals =>
    have creations : (ofSize terminals).creations = [terminals] := rfl
    rw [creations, List.forall_mem_singleton]
    exact (and_iff_left fun t ht => absurd ht (Finset.notMem_empty t)).symm
  | insert made t ih =>
    have words : (made.insert t).set.words = max made.set.words (t / 64 + 1) := rfl
    have members : (made.insert t).members = Insert.insert t made.members := rfl
    have creations : (made.insert t).creations = made.creations := rfl
    rw [words, members, creations, max_le_iff, ih, Finset.forall_mem_insert, and_assoc, Nat.succ_le_iff,
      and_comm (a := t / 64 < w)]
  | union made other ih ih' =>
    have words : (made.union other).set.words = max made.set.words other.set.words := rfl
    have members : (made.union other).members = made.members ∪ other.members := rfl
    have creations : (made.union other).creations = made.creations ++ other.creations := rfl
    rw [words, members, creations, max_le_iff, ih, ih', List.forall_mem_append, Finset.forall_mem_union,
      and_and_and_comm]

/-- Whether a set was created for `terminals` terminals and has no others, and nothing came into it that needs more
words. -/
structure Regular (terminals : Nat) (making : Making) : Prop where
  size_eq : making.size = terminals
  lt_of_mem : ∀ t ∈ making.members, t < terminals
  words_le : ∀ n ∈ making.creations, (TerminalSet.ofSize n).words ≤ (TerminalSet.ofSize terminals).words

theorem size_mem_creations (making : Making) : making.size ∈ making.creations := by
  induction making with
  | ofSize terminals => exact List.mem_singleton_self terminals
  | insert made t ih => exact ih
  | union made other ih => exact List.mem_append_left _ ih

theorem Regular.fits (regular : making.Regular terminals) : making.set.Fits terminals where
  words_eq := by
    refine le_antisymm ((making.words_le_iff _).mpr ⟨regular.words_le, fun t ht => ?_⟩) ?_
    · have below := regular.lt_of_mem t ht
      have words : (TerminalSet.ofSize terminals).words = (terminals + 64 - 1) / 64 := rfl
      omega
    · have created := ((making.words_le_iff _).mp le_rfl).1 _ making.size_mem_creations
      rwa [regular.size_eq] at created
  lt_of_contains t ht := regular.lt_of_mem t ((making.contains_set_iff t).mp ht)

/-- Regular sets are their members. -/
theorem Regular.set_eq_iff (regular : making.Regular terminals) (regular' : other.Regular terminals) :
    making.set = other.set ↔ making.members = other.members := by
  constructor
  · intro same
    ext t
    rw [← contains_set_iff, ← contains_set_iff, same]
  · intro same
    refine regular.fits.ext regular'.fits fun t => ?_
    rw [contains_set_iff, contains_set_iff, same]

/-! ## Faithful sets -/

/-- Whether answers are those of a set of numbers: what it contains, how many they are, and all of them in ascending
order. -/
structure Tells (members : Finset Nat) (contains : Nat → Bool) (count : Nat) (list : List Nat) : Prop where
  contains_iff : ∀ t, contains t ↔ t ∈ members
  count_eq : count = members.card
  ascending : list.Pairwise (· < ·)
  mem_list_iff : ∀ t, t ∈ list ↔ t ∈ members

theorem tells_of_pairwise {members : Finset Nat} {contains : Nat → Bool} {list : List Nat}
    (contains_iff : ∀ t, contains t ↔ t ∈ members) (mem_iff : ∀ t, t ∈ list ↔ contains t)
    (ascending : list.Pairwise (· < ·)) : Tells members contains list.length list where
  contains_iff := contains_iff
  count_eq := by
    have same : members = list.toFinset := by
      ext t
      rw [List.mem_toFinset, mem_iff, contains_iff]
    rw [same, List.toFinset_card_of_nodup (ascending.imp Nat.ne_of_lt)]
  ascending := ascending
  mem_list_iff t := (mem_iff t).trans (contains_iff t)

/-- Whether the terminal set and the vector of a making are those of its members. -/
structure Faithful (making : Making) : Prop where
  set : Tells making.members making.set.contains making.set.size making.set.toList
  vector : Tells making.members making.vector.contains making.vector.count making.vector.members
  /-- The vector has the words and the digits of the set. -/
  shows : making.vector.Shows making.set
  /-- An insertion returns whether the members become more. -/
  insert_new : ∀ t, (making.vector.insert t).2 = !making.set.contains t ∧
    ((making.vector.insert t).2 ↔ making.members ⊂ (making.insert t).members)
  /-- A union returns whether the members become more. -/
  union_new : ∀ other : Making, (making.vector.union other.vector).2 = !making.set.includes other.set ∧
    ((making.vector.union other.vector).2 ↔ making.members ⊂ (making.union other).members)
  /-- Sets that are regular for the same terminals are equal, word by word, if their members are. -/
  eq_iff : ∀ (terminals : Nat) (other : Making), making.Regular terminals → other.Regular terminals →
    (making.vector = other.vector ↔ making.members = other.members) ∧
      (making.set = other.set ↔ making.members = other.members)

theorem union_snd_eq_not_includes (making other : Making) :
    (making.vector.union other.vector).2 = !making.set.includes other.set := by
  rw [Bool.eq_iff_iff, Bool.not_eq_true', ← Bool.not_eq_false, ← Bool.not_eq_true (making.set.includes _),
    WordVector.union_snd_eq_false_iff, TerminalSet.includes_iff]
  simp only [contains_vector_iff, contains_set_iff]

theorem isFaithful (making : Making) : making.Faithful where
  set := tells_of_pairwise making.contains_set_iff (fun _ => making.set.mem_toList) making.set.pairwise_toList
  vector := by
    rw [WordVector.count_eq]
    exact tells_of_pairwise making.contains_vector_iff (fun _ => WordVector.mem_members) making.vector.pairwise_members
  shows := making.shows_vector
  insert_new t :=
    ⟨by rw [WordVector.insert_snd, making.shows_vector.contains_eq], making.insert_snd_iff t⟩
  union_new other := ⟨making.union_snd_eq_not_includes other, making.union_snd_iff other⟩
  eq_iff _ other regular regular' :=
    ⟨(making.shows_vector.eq_iff other.shows_vector).trans (regular.set_eq_iff regular'), regular.set_eq_iff regular'⟩

end Making

/-! ## Sequences of items -/

namespace ItemSet
variable {items others : List Item}

/-- Whether two sequences of insertions insert the same cores, and for each of them the same terminals. -/
structure SameUnions (items others : List Item) : Prop where
  core_iff : ∀ core, (∃ item ∈ items, item.core = core) ↔ ∃ item ∈ others, item.core = core
  terminal_iff : ∀ core t, (∃ item ∈ items, item.core = core ∧ item.lookahead.contains t) ↔
    ∃ item ∈ others, item.core = core ∧ item.lookahead.contains t

/-- Whether no core occurs twice, and each is found where its item stands. -/
structure Indexed (set : ItemSet) : Prop where
  nodup : (set.items.map Item.core).Nodup
  position?_eq_some_iff : ∀ (core : Core) (i : Nat),
    set.position? core = some i ↔ ∃ item, set.items[i]? = some item ∧ item.core = core

theorem indexed (set : ItemSet) : set.Indexed where
  nodup := set.nodup_map_core_items
  position?_eq_some_iff _ _ := set.position?_eq_some_iff

theorem LookaheadsFit.merge {terminals : Nat} {set : ItemSet} (fits : set.LookaheadsFit terminals)
    (h : ∀ item ∈ items, item.lookahead.Fits terminals) : (set.merge items).LookaheadsFit terminals := by
  induction items generalizing set with
  | nil => exact fits
  | cons item items ih =>
    exact ih (fits.insert item.core (h item List.mem_cons_self)) fun other ho => h other (List.mem_cons_of_mem _ ho)

theorem SameUnions.holds_iff (same : SameUnions items others) :
    ∀ fact, (empty.merge items).Holds fact ↔ (empty.merge others).Holds fact
  | (core, 0) => by
    refine has_merge.trans (Iff.trans ?_ has_merge.symm)
    rw [same.core_iff]
  | (core, t + 1) => by
    refine allows_merge.trans (Iff.trans ?_ allows_merge.symm)
    rw [same.terminal_iff]

/-- Whether two sets have the same keys. -/
structure SameKeys (set other : ItemSet) : Prop where
  cores_eq : set.sortedCores = other.sortedCores
  items_eq : set.sortedItems = other.sortedItems

theorem SameUnions.sameKeys {terminals : Nat} (same : SameUnions items others)
    (fits : ∀ item ∈ items ++ others, item.lookahead.Fits terminals) :
    SameKeys (empty.merge items) (empty.merge others) := by
  have none : empty.LookaheadsFit terminals := fun item hm => by cases hm
  obtain ⟨fits, fits'⟩ := List.forall_mem_append.mp fits
  exact ⟨sortedCores_eq fun core => same.holds_iff (core, 0),
    (none.merge fits).sortedItems_eq (none.merge fits') same.holds_iff⟩

end ItemSet

/-- **Sets of terminals and of items are faithful.**  Whatever sequence of insertions and unions they come from, sets of
terminals are their members, and only irregular sets may differ in words beyond that; and sequences of items that give
each core the same union of regular lookaheads have the same keys, in whatever order the items come. -/
theorem makings_faithful :
    (∀ sizes commands r, ∃ making : Making, ∀ {α : Type} (algebra : SetAlgebra α),
      algebra.run sizes commands r = making.make algebra) ∧
    (∀ making : Making, making.Faithful) ∧
    ∀ (terminals : Nat) (items others : List Item),
      (∀ item ∈ items ++ others, ∃ making : Making, making.Regular terminals ∧ making.set = item.lookahead) →
      ItemSet.SameUnions items others →
      ItemSet.SameKeys (ItemSet.empty.merge items) (ItemSet.empty.merge others) ∧
        (ItemSet.empty.merge items).Indexed ∧ (ItemSet.empty.merge others).Indexed := by
  refine ⟨fun sizes commands r => ?_, Making.isFaithful, fun terminals items others regular same => ?_⟩
  · exact ⟨SetAlgebra.makings.run sizes commands r, fun algebra => (congrFun (Making.make_run algebra _ _) r).symm⟩
  · have fits : ∀ item ∈ items ++ others, item.lookahead.Fits terminals := by
      intro item hm
      obtain ⟨making, regular, lookahead⟩ := regular item hm
      exact lookahead ▸ regular.fits
    exact ⟨same.sameKeys fits, ItemSet.indexed _, ItemSet.indexed _⟩

/-- A set with one terminal. -/
def Making.single (terminals t : Nat) : Making := .insert (.ofSize terminals) t

/-- A set of two words into which one of a single word came. -/
def Making.mixed : Making := .union (.single 70 65) (.single 8 3)

/-- Two sequences of items that give each core the terminals 3 and 65, in another order and in other parts. -/
theorem makings_faithful_mixed :
    let items : List Item :=
      [⟨⟨1, 0⟩, (Making.single 70 3).set⟩, ⟨⟨0, 2⟩, Making.mixed.set⟩, ⟨⟨1, 0⟩, (Making.single 70 65).set⟩]
    let others : List Item :=
      [⟨⟨0, 2⟩, (Making.single 70 65).set⟩, ⟨⟨1, 0⟩, Making.mixed.set⟩, ⟨⟨0, 2⟩, (Making.single 70 3).set⟩]
    items ≠ others ∧ ItemSet.SameKeys (ItemSet.empty.merge items) (ItemSet.empty.merge others) := by
  intro items others
  have low : (Making.single 70 3).Regular 70 := ⟨rfl, by decide, by decide⟩
  have high : (Making.single 70 65).Regular 70 := ⟨rfl, by decide, by decide⟩
  have both : Making.mixed.Regular 70 := ⟨rfl, by decide, by decide⟩
  have members : Making.mixed.members = (Making.single 70 3).members ∪ (Making.single 70 65).members := by decide
  have contains (t : Nat) : Making.mixed.set.contains t ↔
      (Making.single 70 3).set.contains t ∨ (Making.single 70 65).set.contains t := by
    rw [Making.contains_set_iff, Making.contains_set_iff, Making.contains_set_iff, members, Finset.mem_union]
  refine ⟨by decide, (makings_faithful.2.2 70 items others ?_ ⟨fun core => ?_, fun core t => ?_⟩).1⟩
  · simp only [items, others, List.cons_append, List.nil_append, List.forall_mem_cons]
    exact ⟨⟨_, low, rfl⟩, ⟨_, both, rfl⟩, ⟨_, high, rfl⟩, ⟨_, high, rfl⟩, ⟨_, both, rfl⟩, ⟨_, low, rfl⟩,
      fun _ hm => by cases hm⟩
  · simp only [items, others, List.exists_mem_cons_iff]
    tauto
  · simp only [items, others, List.exists_mem_cons_iff, contains]
    tauto

/-- Three sets, the last one for more terminals than the others. -/
def unlike (r : Nat) : Nat := if r = 2 then 200 else 8

/-- Once the last set came into the first one, the first has more words than the second, although all are empty. -/
theorem words_tell_apart :
    let vectors := SetAlgebra.vectors.run unlike [.union 0 2]
    let sets := SetAlgebra.sets.run unlike [.union 0 2]
    let members := SetAlgebra.numbers.run unlike [.union 0 2]
    unlike 0 = unlike 1 ∧ (∀ t ∈ members 0, t < unlike 0) ∧ (∀ t ∈ members 1, t < unlike 1) ∧
      members 0 = members 1 ∧ vectors 0 ≠ vectors 1 ∧ sets 0 ≠ sets 1 := by
  decide

end TableParsing
