import TableParsing.Lr.Item
import TableParsing.Proofs.Fixpoint
import TableParsing.Proofs.Numbering

/-! # Members of lookaheads and item sets

An item set is looked at in two ways: which cores it **has**, and which terminals it **allows** behind the
production of a core.  Insertion adds a core and the terminals of its lookahead, and `covers` asks whether
they are there already.

The lookaheads of one grammar **fit** its terminals: they have as many words as the terminals need and no
member beyond them.  Sets that fit are equal when they have the same members. -/

namespace TableParsing

namespace TerminalSet
variable {set other : TerminalSet} {t u terminals : Nat}

theorem contains_ofSize : (ofSize terminals).contains t = false := Nat.zero_testBit t

theorem contains_insert : (set.insert u).contains t ↔ set.contains t ∨ t = u := by
  rw [contains, insert, Nat.testBit_or, Nat.one_shiftLeft, Nat.testBit_two_pow, Bool.or_eq_true,
    decide_eq_true_eq]
  exact or_congr Iff.rfl eq_comm

theorem contains_union : (set.union other).contains t ↔ set.contains t ∨ other.contains t := by
  rw [contains, union, Nat.testBit_or, Bool.or_eq_true]
  rfl

theorem pairwise_digitsFrom (k base bits : Nat) : (digitsFrom k base bits).Pairwise (· < ·) := by
  induction k generalizing base bits with
  | zero =>
    rw [digitsFrom]
    split
    · exact List.pairwise_singleton _ _
    · exact List.Pairwise.nil
  | succ k ih =>
    rw [digitsFrom]
    split
    · exact List.Pairwise.nil
    · refine List.pairwise_append.mpr ⟨ih _ _, ih _ _, fun t ht u hu => ?_⟩
      exact Nat.lt_of_lt_of_le (mem_digitsFrom.mp ht).2.1 (mem_digitsFrom.mp hu).1

/-- The members are listed in ascending order. -/
theorem pairwise_toList (set : TerminalSet) : set.toList.Pairwise (· < ·) := pairwise_digitsFrom _ _ _

theorem includes_iff : set.includes other ↔ ∀ t, other.contains t → set.contains t := by
  rw [includes, beq_iff_eq]
  constructor
  · intro h t ht
    rw [contains, ← h, Nat.testBit_or, Bool.or_eq_true]
    exact .inr ht
  · intro h
    refine Nat.eq_of_testBit_eq fun t => ?_
    rw [Nat.testBit_or]
    cases ht : other.bits.testBit t with
    | false => rw [Bool.or_false]
    | true => rw [Bool.or_true, show set.bits.testBit t = true from h t ht]

/-- The set has the words of a grammar's lookaheads and no member beyond its terminals. -/
structure Fits (terminals : Nat) (set : TerminalSet) : Prop where
  words_eq : set.words = (ofSize terminals).words
  lt_of_contains : ∀ t, set.contains t → t < terminals

theorem fits_ofSize (terminals : Nat) : (ofSize terminals).Fits terminals :=
  ⟨rfl, fun _ h => by rw [contains_ofSize] at h; cases h⟩

theorem Fits.insert (fits : set.Fits terminals) (h : t < terminals) : (set.insert t).Fits terminals where
  words_eq := by
    have words : (ofSize terminals).words = (terminals + 64 - 1) / 64 := rfl
    have grown : (set.insert t).words = max set.words (t / 64 + 1) := rfl
    rw [grown, fits.words_eq, words]
    omega
  lt_of_contains u hu := by
    rcases contains_insert.mp hu with hu | rfl
    · exact fits.lt_of_contains u hu
    · exact h

theorem Fits.union (fits : set.Fits terminals) (fits' : other.Fits terminals) :
    (set.union other).Fits terminals where
  words_eq := by rw [TerminalSet.union, fits.words_eq, fits'.words_eq, Nat.max_self]
  lt_of_contains t ht := (contains_union.mp ht).elim (fits.lt_of_contains t) (fits'.lt_of_contains t)

/-- Sets that fit are their members. -/
theorem Fits.ext (fits : set.Fits terminals) (fits' : other.Fits terminals)
    (h : ∀ t, set.contains t ↔ other.contains t) : set = other := by
  obtain ⟨words, bits⟩ := set
  obtain ⟨words', bits'⟩ := other
  have same : bits = bits' := Nat.eq_of_testBit_eq fun t => Bool.eq_iff_iff.mpr (h t)
  rw [same, show words = words' from fits.words_eq.trans fits'.words_eq.symm]

end TerminalSet

namespace ItemSet
variable (set : ItemSet) {core : Core} {lookahead : TerminalSet} {item : Item} {t : Nat}

/-- Whether the set has an item for a core. -/
def Has (core : Core) : Prop := core ∈ set.cores.toList

/-- Whether the set has an item for a core that a terminal may follow. -/
def Allows (core : Core) (t : Nat) : Prop :=
  ∃ item ∈ set.items, item.core = core ∧ item.lookahead.contains t

theorem mem_items_iff : item ∈ set.items ↔
    ∃ i : Nat, set.cores.elements[i]? = some item.core ∧ set.lookaheads[i]? = some item.lookahead := by
  rw [items, List.mem_iff_getElem?]
  refine exists_congr fun i => ?_
  rw [List.getElem?_zipWith, Numbering.toList, Array.getElem?_toList, Array.getElem?_toList]
  obtain ⟨core, lookahead⟩ := item
  cases set.cores.elements[i]? <;> cases set.lookaheads[i]? <;> simp

theorem item_ext {a b : Item} (ha : a ∈ set.items) (hb : b ∈ set.items) (h : a.core = b.core) :
    a = b := by
  obtain ⟨i, hi, hla⟩ := set.mem_items_iff.mp ha
  obtain ⟨j, hj, hlb⟩ := set.mem_items_iff.mp hb
  rw [h] at hi
  cases set.cores.elements_inj hi hj
  obtain ⟨core, lookahead⟩ := a
  obtain ⟨core', lookahead'⟩ := b
  cases h
  cases hla.symm.trans hlb
  rfl

theorem has_iff : set.Has core ↔ ∃ item ∈ set.items, item.core = core := by
  rw [Has, Numbering.mem_toList_iff]
  constructor
  · rintro ⟨i, hi⟩
    have bound : i < set.lookaheads.size := by
      rw [set.size_lookaheads]
      exact (Array.getElem?_eq_some_iff.mp hi).1
    exact ⟨⟨core, set.lookaheads[i]⟩, set.mem_items_iff.mpr ⟨i, hi, Array.getElem?_eq_getElem bound⟩, rfl⟩
  · rintro ⟨item, hm, rfl⟩
    obtain ⟨i, hi, -⟩ := set.mem_items_iff.mp hm
    exact ⟨i, hi⟩

theorem Allows.has {set : ItemSet} (h : set.Allows core t) : set.Has core :=
  let ⟨item, hm, hc, _⟩ := h
  set.has_iff.mpr ⟨item, hm, hc⟩

theorem allows_of_mem (h : item ∈ set.items) (ht : item.lookahead.contains t) :
    set.Allows item.core t := ⟨item, h, rfl, ht⟩

theorem allows_iff_of_mem (h : item ∈ set.items) :
    set.Allows item.core t ↔ item.lookahead.contains t := by
  constructor
  · rintro ⟨other, hm, hc, ht⟩
    rwa [← set.item_ext hm h hc]
  · exact set.allows_of_mem h

theorem item?_eq_some_iff {i : Nat} : set.item? i = some item ↔
    set.cores.elements[i]? = some item.core ∧ set.lookaheads[i]? = some item.lookahead := by
  rw [item?]
  obtain ⟨core, lookahead⟩ := item
  cases set.cores.elements[i]? <;> cases set.lookaheads[i]? <;> simp [bind, Option.bind]

theorem find?_eq_some_iff : set.find? core = some item ↔ item ∈ set.items ∧ item.core = core := by
  rw [find?, Option.bind_eq_some_iff, mem_items_iff]
  constructor
  · rintro ⟨i, hi, hitem⟩
    have place := set.cores.number?_eq_some_iff.mp hi
    obtain ⟨hc, hl⟩ := set.item?_eq_some_iff.mp hitem
    exact ⟨⟨i, hc, hl⟩, Option.some.inj (hc.symm.trans place)⟩
  · rintro ⟨⟨i, hc, hl⟩, rfl⟩
    exact ⟨i, set.cores.number?_eq_some_iff.mpr hc, set.item?_eq_some_iff.mpr ⟨hc, hl⟩⟩

theorem find?_eq_none_iff : set.find? core = none ↔ ¬set.Has core := by
  rw [Option.eq_none_iff_forall_not_mem, has_iff]
  simp only [Option.mem_def, find?_eq_some_iff, not_exists, not_and]

/-- Covering is having the core and allowing all of the lookahead. -/
theorem covers_iff : set.covers core lookahead ↔
    set.Has core ∧ ∀ t, lookahead.contains t → set.Allows core t := by
  rw [covers]
  cases hf : set.find? core with
  | none => simp [set.find?_eq_none_iff.mp hf]
  | some item =>
    obtain ⟨hm, rfl⟩ := set.find?_eq_some_iff.mp hf
    rw [Option.any_some, TerminalSet.includes_iff]
    simp only [set.allows_iff_of_mem hm]
    exact ⟨fun h => ⟨set.has_iff.mpr ⟨item, hm, rfl⟩, h⟩, And.right⟩

/-! ## Insertion -/

/-- The lookahead of a core once `lookahead` is inserted for it. -/
def grown (core : Core) (lookahead : TerminalSet) : TerminalSet :=
  ((set.find? core).map (·.lookahead.union lookahead)).getD lookahead

/-- A core that is there keeps its number, and its lookahead grows. -/
theorem insert_of_number? {n : Nat} (hn : set.cores.number? core = some n) (lookahead : TerminalSet) :
    (set.insert core lookahead).cores = set.cores ∧
      (set.insert core lookahead).lookaheads = set.lookaheads.modify n (·.union lookahead) := by
  rw [insert]
  split
  · rename_i i known
    cases hn.symm.trans known
    exact ⟨rfl, rfl⟩
  · rename_i known
    cases hn.symm.trans known

/-- A new core comes last, with its lookahead. -/
theorem insert_of_number?_eq_none (hn : set.cores.number? core = none) (lookahead : TerminalSet) :
    (set.insert core lookahead).cores.elements = set.cores.elements.push core ∧
      (set.insert core lookahead).lookaheads = set.lookaheads.push lookahead := by
  rw [insert]
  split
  · rename_i i known
    cases hn.symm.trans known
  · exact ⟨by rw [Numbering.elements_insert, hn]; rfl, rfl⟩

theorem mem_items_insert : item ∈ (set.insert core lookahead).items ↔
    item ∈ set.items ∧ item.core ≠ core ∨ item = ⟨core, set.grown core lookahead⟩ := by
  obtain ⟨c, l⟩ := item
  rw [mem_items_iff, mem_items_iff]
  cases hn : set.cores.number? core with
  | some n =>
    have place := set.cores.number?_eq_some_iff.mp hn
    have bound : n < set.lookaheads.size := by
      rw [set.size_lookaheads]
      exact (Array.getElem?_eq_some_iff.mp place).1
    have hf : set.find? core = some ⟨core, set.lookaheads[n]⟩ := set.find?_eq_some_iff.mpr
      ⟨set.mem_items_iff.mpr ⟨n, place, Array.getElem?_eq_getElem bound⟩, rfl⟩
    obtain ⟨cores, lookaheads⟩ := set.insert_of_number? hn lookahead
    rw [cores, lookaheads, grown, hf]
    simp only [Array.getElem?_modify, Option.map_some, Option.getD_some, Item.mk.injEq]
    constructor
    · rintro ⟨i, hc, hl⟩
      by_cases hi : n = i
      · subst hi
        rw [if_pos rfl, Array.getElem?_eq_getElem bound] at hl
        cases place.symm.trans hc
        exact .inr ⟨rfl, (Option.some.inj hl).symm⟩
      · rw [if_neg hi] at hl
        exact .inl ⟨⟨i, hc, hl⟩, fun he => hi (set.cores.elements_inj (he ▸ place) hc)⟩
    · rintro (⟨⟨i, hc, hl⟩, hne⟩ | ⟨rfl, rfl⟩)
      · have hi : n ≠ i := fun he => hne (Option.some.inj (hc.symm.trans (he ▸ place)))
        exact ⟨i, hc, by rw [if_neg hi]; exact hl⟩
      · refine ⟨n, place, ?_⟩
        rw [if_pos rfl, Array.getElem?_eq_getElem bound]
        rfl
  | none =>
    have absent := set.cores.number?_eq_none_iff.mp hn
    obtain ⟨cores, lookaheads⟩ := set.insert_of_number?_eq_none hn lookahead
    rw [cores, lookaheads, grown, set.find?_eq_none_iff.mpr absent]
    simp only [Array.getElem?_push, set.size_lookaheads, Option.map_none, Option.getD_none, Item.mk.injEq]
    constructor
    · rintro ⟨i, hc, hl⟩
      by_cases hi : i = set.cores.elements.size
      · rw [if_pos hi] at hc hl
        exact .inr ⟨(Option.some.inj hc).symm, (Option.some.inj hl).symm⟩
      · rw [if_neg hi] at hc hl
        exact .inl ⟨⟨i, hc, hl⟩, fun he => absent (set.cores.mem_toList_iff.mpr ⟨i, he ▸ hc⟩)⟩
    · rintro (⟨⟨i, hc, hl⟩, -⟩ | ⟨rfl, rfl⟩)
      · have hi : i ≠ set.cores.elements.size := by
          have := (Array.getElem?_eq_some_iff.mp hc).1
          omega
        exact ⟨i, by rw [if_neg hi]; exact hc, by rw [if_neg hi]; exact hl⟩
      · exact ⟨set.cores.elements.size, by rw [if_pos rfl], by rw [if_pos rfl]⟩

theorem contains_grown : (set.grown core lookahead).contains t ↔
    set.Allows core t ∨ lookahead.contains t := by
  rw [grown]
  cases hf : set.find? core with
  | none =>
    have absent : ¬set.Allows core t := fun h => set.find?_eq_none_iff.mp hf h.has
    simp [absent]
  | some item =>
    obtain ⟨hm, rfl⟩ := set.find?_eq_some_iff.mp hf
    rw [set.allows_iff_of_mem hm]
    exact TerminalSet.contains_union

/-- Whether all lookaheads of the set fit. -/
def LookaheadsFit (terminals : Nat) (set : ItemSet) : Prop := ∀ item ∈ set.items, item.lookahead.Fits terminals

variable {set} in
theorem LookaheadsFit.insert {terminals : Nat} (fits : set.LookaheadsFit terminals) (core : Core)
    (hl : lookahead.Fits terminals) : (set.insert core lookahead).LookaheadsFit terminals := by
  intro item hm
  rcases set.mem_items_insert.mp hm with ⟨hm, -⟩ | rfl
  · exact fits item hm
  · change (set.grown core lookahead).Fits terminals
    rw [grown]
    cases hf : set.find? core with
    | none => exact hl
    | some old => exact (fits old (set.find?_eq_some_iff.mp hf).1).union hl

theorem has_insert {other : Core} :
    (set.insert core lookahead).Has other ↔ set.Has other ∨ other = core := by
  simp only [has_iff, mem_items_insert]
  constructor
  · rintro ⟨item, ⟨hm, -⟩ | rfl, rfl⟩
    · exact .inl ⟨item, hm, rfl⟩
    · exact .inr rfl
  · rintro (⟨item, hm, rfl⟩ | rfl)
    · by_cases he : item.core = core
      · exact ⟨_, .inr rfl, he.symm⟩
      · exact ⟨item, .inl ⟨hm, he⟩, rfl⟩
    · exact ⟨_, .inr rfl, rfl⟩

theorem allows_insert {other : Core} : (set.insert core lookahead).Allows other t ↔
    set.Allows other t ∨ other = core ∧ lookahead.contains t := by
  by_cases he : other = core
  · subst he
    have here : (⟨other, set.grown other lookahead⟩ : Item) ∈ (set.insert other lookahead).items :=
      set.mem_items_insert.mpr (.inr rfl)
    rw [(set.insert other lookahead).allows_iff_of_mem here, contains_grown]
    simp
  · constructor
    · rintro ⟨item, hm, rfl, ht⟩
      rcases set.mem_items_insert.mp hm with ⟨hm, -⟩ | rfl
      · exact .inl ⟨item, hm, rfl, ht⟩
      · exact absurd rfl he
    · rintro (⟨item, hm, rfl, ht⟩ | ⟨rfl, -⟩)
      · exact ⟨item, set.mem_items_insert.mpr (.inl ⟨hm, he⟩), rfl, ht⟩
      · exact absurd rfl he

theorem toList_prefix_cores (core : Core) (lookahead : TerminalSet) :
    set.cores.toList <+: (set.insert core lookahead).cores.toList := by
  rw [insert]
  split
  · exact List.prefix_refl _
  · exact set.cores.toList_prefix_insert core

/-- Inserting brings the core and its lookahead. -/
theorem covers_insert : (set.insert core lookahead).covers core lookahead :=
  (covers_iff _).mpr ⟨set.has_insert.mpr (.inr rfl), fun _ ht => set.allows_insert.mpr (.inr ⟨rfl, ht⟩)⟩

theorem not_has_empty : ¬empty.Has core := by simp [Has, empty, Numbering.toList, Numbering.empty]

theorem not_allows_empty : ¬empty.Allows core t := fun h => not_has_empty h.has

/-! ## Growth -/

/-- Whether `other` has all that the set has, and allows all that it allows. -/
structure Le (set other : ItemSet) : Prop where
  has : ∀ core, set.Has core → other.Has core
  allows : ∀ core t, set.Allows core t → other.Allows core t

namespace Le
variable {set} {other third : ItemSet}

theorem refl (set : ItemSet) : set.Le set := ⟨fun _ => id, fun _ _ => id⟩

theorem trans (h : set.Le other) (h' : other.Le third) : set.Le third :=
  ⟨fun core hc => h'.has core (h.has core hc), fun core t ht => h'.allows core t (h.allows core t ht)⟩

theorem insert (set : ItemSet) (core : Core) (lookahead : TerminalSet) :
    set.Le (set.insert core lookahead) :=
  ⟨fun _ h => set.has_insert.mpr (.inl h), fun _ _ h => set.allows_insert.mpr (.inl h)⟩

theorem covers (h : set.Le other) (hc : set.covers core lookahead) : other.covers core lookahead := by
  obtain ⟨has, allows⟩ := set.covers_iff.mp hc
  exact other.covers_iff.mpr ⟨h.has core has, fun t ht => h.allows core t (allows t ht)⟩

end Le

/-! ## Counting

What a set says of a core is numbered: at 0 that it has the core, behind it which terminals it allows. -/

/-- What the set says of a core under a number. -/
def Holds (set : ItemSet) : Core × Nat → Prop
  | (core, 0) => set.Has core
  | (core, t + 1) => set.Allows core t

theorem Le.holds {set other : ItemSet} (h : set.Le other) :
    ∀ fact, set.Holds fact → other.Holds fact
  | (core, 0) => h.has core
  | (core, t + 1) => h.allows core t

/-- All that sets can say of some cores. -/
def facts (cores : List Core) (terminals : Nat) : List (Core × Nat) :=
  cores.flatMap fun core => (List.range (terminals + 1)).map (core, ·)

theorem length_facts (cores : List Core) (terminals : Nat) :
    (facts cores terminals).length = cores.length * (terminals + 1) := by
  rw [facts, List.length_flatMap]
  simp [List.map_const']

theorem mem_facts {cores : List Core} {terminals k : Nat} :
    (core, k) ∈ facts cores terminals ↔ core ∈ cores ∧ k < terminals + 1 := by
  simp [facts]

/-- A set that covers what another does not says more. -/
theorem countHolding_lt {set other : ItemSet} {cores : List Core} {terminals : Nat} (le : set.Le other)
    (hc : core ∈ cores) (hl : lookahead.Fits terminals) (h : ¬set.covers core lookahead)
    (h' : other.covers core lookahead) :
    countHolding (facts cores terminals) set.Holds < countHolding (facts cores terminals) other.Holds := by
  obtain ⟨has, allows⟩ := other.covers_iff.mp h'
  by_cases hhas : set.Has core
  · have new : ∃ t, lookahead.contains t ∧ ¬set.Allows core t :=
      Classical.byContradiction fun hno => h (set.covers_iff.mpr ⟨hhas, fun t ht =>
        Classical.byContradiction fun ha => hno ⟨t, ht, ha⟩⟩)
    obtain ⟨t, ht, ha⟩ := new
    have bound := hl.lt_of_contains t ht
    have mem : (core, t + 1) ∈ facts cores terminals := mem_facts.mpr ⟨hc, by omega⟩
    exact TableParsing.countHolding_lt (fun fact _ => le.holds fact) mem ha (allows t ht)
  · have mem : (core, 0) ∈ facts cores terminals := mem_facts.mpr ⟨hc, Nat.succ_pos _⟩
    exact TableParsing.countHolding_lt (fun fact _ => le.holds fact) mem hhas has

/-! ## Order of the items -/

theorem mem_sortedCores : core ∈ set.sortedCores ↔ set.Has core := by
  rw [sortedCores, List.mem_mergeSort]
  rfl

theorem mem_sortedItems : item ∈ set.sortedItems ↔ item ∈ set.items := by
  rw [sortedItems, List.mem_mergeSort]

end ItemSet
end TableParsing
