import Mathlib.Tactic.Choose
import TableParsing.Proofs.Lr.Chart
import TableParsing.Proofs.Lr.Exactness

/-! # Merging cores loses nothing and adds nothing

The collection with merged cores is the canonical one with the states of the same cores taken together
(`exists_isCoreMerge`).  Both collections are looked at through the words that lead to their states: a word leads to
states with the same cores in both, a terminal that is valid for a word is allowed behind it in both, and neither
collection allows a terminal without a word for it.  So a merged state allows exactly what its canonical states allow
together, in whatever order the kernels were merged. -/

namespace TableParsing

open Collection (State)

namespace Cfg
variable {cfg : Cfg} {mergeCores : Bool} {i k : Nat} {a b : State} {core : Core} {t : Nat}

/-- What makes a map from the states of the canonical collection to those of the merged one the merging of cores. -/
structure IsCoreMerge (cfg : Cfg) (f : Nat → Nat) : Prop where
  /-- The image of a state is the one merged state whose kernel has the same cores. -/
  image : ∀ (i : Nat) a, (cfg.collection false)[i]? = some a →
    (∃ b, (cfg.collection true)[f i]? = some b ∧ ∀ core, b.kernel.Has core ↔ a.kernel.Has core) ∧
    ∀ (k : Nat) b, (cfg.collection true)[k]? = some b → (∀ core, b.kernel.Has core ↔ a.kernel.Has core) → k = f i
  surjective : ∀ (k : Nat) b, (cfg.collection true)[k]? = some b → ∃ i a, (cfg.collection false)[i]? = some a ∧ f i = k
  start : f 0 = 0
  /-- In either collection state 0 has the beginning for its kernel, with the end of the input behind it. -/
  begins : ∀ mergeCores, ∃ state, (cfg.collection mergeCores)[0]? = some state ∧
    (∀ core, state.kernel.Has core ↔ core = ⟨cfg.augmented, 0⟩) ∧
    ∀ core t, state.kernel.Allows core t ↔ core = ⟨cfg.augmented, 0⟩ ∧ t = endTerminal
  transitions : ∀ (i : Nat) a b, (cfg.collection false)[i]? = some a → (cfg.collection true)[f i]? = some b →
    ∀ symbol, b.transitions.lookup symbol = (a.transitions.lookup symbol).map f
  items_has : ∀ (i : Nat) a b, (cfg.collection false)[i]? = some a → (cfg.collection true)[f i]? = some b →
    ∀ core, b.items.Has core ↔ a.items.Has core
  kernel_allows : ∀ (k : Nat) b, (cfg.collection true)[k]? = some b → ∀ core t,
    b.kernel.Allows core t ↔ ∃ i a, (cfg.collection false)[i]? = some a ∧ f i = k ∧ a.kernel.Allows core t
  items_allows : ∀ (k : Nat) b, (cfg.collection true)[k]? = some b → ∀ core t,
    b.items.Allows core t ↔ ∃ i a, (cfg.collection false)[i]? = some a ∧ f i = k ∧ a.items.Allows core t

/-- Every state of either collection is led to by a word, which leads to a state of the other one as well. -/
theorem exists_word (wf : cfg.WellFormed) (ha : (cfg.collection mergeCores)[i]? = some a) (other : Bool) :
    ∃ (word : List Symbol) (k : Nat) (b : State), (cfg.collection other)[k]? = some b ∧
      cfg.Spells word a.kernel ∧ cfg.Follows word b := by
  obtain ⟨word, spells⟩ := (explained_collection wf ha).spelled
  obtain ⟨core, hc⟩ := (isAutomaton_collection wf mergeCores).exists_core ha
  obtain ⟨k, b, -, hb, follows⟩ := (isAutomaton_collection wf other).exists_state ((spells core).mp hc).viable
  exact ⟨word, k, b, hb, spells, follows⟩

/-- States with the same cores lead on behind the same symbols, to states with the same cores. -/
theorem exists_lookup_of_spells (wf : cfg.WellFormed) {other : Bool} {word : List Symbol} {symbol : Symbol} {j : Nat}
    (ha : (cfg.collection mergeCores)[i]? = some a) (hb : (cfg.collection other)[k]? = some b)
    (spells : cfg.Spells word a.kernel) (spells' : cfg.Spells word b.kernel)
    (leads : a.transitions.lookup symbol = some j) :
    ∃ l c d, b.transitions.lookup symbol = some l ∧ (cfg.collection mergeCores)[j]? = some c ∧
      (cfg.collection other)[l]? = some d ∧ ∀ core, d.kernel.Has core ↔ c.kernel.Has core := by
  have automaton := isAutomaton_collection wf mergeCores
  have automaton' := isAutomaton_collection wf other
  obtain ⟨c, hc, spellsNext⟩ := automaton.spells_cons ha spells leads
  obtain ⟨l, leads'⟩ := (automaton'.exists_lookup_iff hb spells').mpr
    ((automaton.exists_lookup_iff ha spells).mp ⟨j, leads⟩)
  obtain ⟨d, hd, spellsNext'⟩ := automaton'.spells_cons hb spells' leads'
  exact ⟨l, c, d, leads', hc, hd, spellsNext.has_iff spellsNext'⟩

/-- The kernel of state 0 is the beginning, whether cores are merged or not. -/
theorem exists_start (wf : cfg.WellFormed) (mergeCores : Bool) :
    ∃ state, (cfg.collection mergeCores)[0]? = some state ∧
      (∀ core, state.kernel.Has core ↔ core = ⟨cfg.augmented, 0⟩) ∧
      ∀ core t, state.kernel.Allows core t ↔ core = ⟨cfg.augmented, 0⟩ ∧ t = endTerminal := by
  obtain ⟨state, hs, cores, allows⟩ := (isAutomaton_collection wf mergeCores).start
  refine ⟨state, hs, cores, fun core t => ⟨kernelItem_nil_of_allows wf hs cores, ?_⟩⟩
  rintro ⟨rfl, rfl⟩
  exact allows

/-- Whether a map takes each canonical state to a merged state with the same cores. -/
def KeepsCores (cfg : Cfg) (f : Nat → Nat) : Prop :=
  ∀ (i : Nat) a, (cfg.collection false)[i]? = some a →
    ∃ b, (cfg.collection true)[f i]? = some b ∧ ∀ core, b.kernel.Has core ↔ a.kernel.Has core

theorem exists_keepsCores (wf : cfg.WellFormed) : ∃ f, cfg.KeepsCores f := by
  have total : ∀ i : Nat, ∃ k : Nat, ∀ a, (cfg.collection false)[i]? = some a →
      ∃ b, (cfg.collection true)[k]? = some b ∧ ∀ core, b.kernel.Has core ↔ a.kernel.Has core := by
    intro i
    cases ha : (cfg.collection false)[i]? with
    | none => exact ⟨0, nofun⟩
    | some a =>
      obtain ⟨word, k, b, hb, spells, follows⟩ := exists_word wf ha true
      refine ⟨k, fun other ho => ?_⟩
      cases ho
      exact ⟨b, hb, spells.has_iff follows.spells⟩
  choose f hf using total
  exact ⟨f, hf⟩

namespace KeepsCores
variable {f : Nat → Nat} {word : List Symbol} (h : cfg.KeepsCores f)
include h

theorem has_iff (ha : (cfg.collection false)[i]? = some a) (hb : (cfg.collection true)[f i]? = some b) (core : Core) :
    b.kernel.Has core ↔ a.kernel.Has core := by
  obtain ⟨c, hc, same⟩ := h i a ha
  cases hb.symm.trans hc
  exact same core

/-- A merged state with the cores of a canonical one is its image. -/
theorem eq_image (wf : cfg.WellFormed) (ha : (cfg.collection false)[i]? = some a)
    (hb : (cfg.collection true)[k]? = some b) (same : ∀ core, b.kernel.Has core ↔ a.kernel.Has core) : f i = k := by
  obtain ⟨c, hc, same'⟩ := h i a ha
  exact eq_of_has_iff wf hc hb fun core => (same' core).trans (same core).symm

theorem start (wf : cfg.WellFormed) : f 0 = 0 := by
  obtain ⟨a, ha, cores, -⟩ := exists_start wf false
  obtain ⟨b, hb, cores', -⟩ := exists_start wf true
  exact h.eq_image wf ha hb fun core => (cores' core).trans (cores core).symm

theorem lookup (wf : cfg.WellFormed) (ha : (cfg.collection false)[i]? = some a)
    (hb : (cfg.collection true)[f i]? = some b) (symbol : Symbol) :
    b.transitions.lookup symbol = (a.transitions.lookup symbol).map f := by
  obtain ⟨word, spells⟩ := (explained_collection wf ha).spelled
  have spells' : cfg.Spells word b.kernel := spells.congr (h.has_iff ha hb)
  cases leads : a.transitions.lookup symbol with
  | some j =>
    obtain ⟨l, c, d, leads', hc, hd, same⟩ := exists_lookup_of_spells wf ha hb spells spells' leads
    rw [leads', Option.map_some, h.eq_image wf hc hd same]
  | none =>
    cases leads' : b.transitions.lookup symbol with
    | none => rfl
    | some l =>
      obtain ⟨j, -, -, leads'', -⟩ := exists_lookup_of_spells wf hb ha spells' spells leads'
      rw [leads] at leads''
      cases leads''

theorem items_has_iff (wf : cfg.WellFormed) (ha : (cfg.collection false)[i]? = some a)
    (hb : (cfg.collection true)[f i]? = some b) (core : Core) : b.items.Has core ↔ a.items.Has core := by
  obtain ⟨word, spells⟩ := (explained_collection wf ha).spelled
  have spells' : cfg.Spells word b.kernel := spells.congr (h.has_iff ha hb)
  rw [((isAutomaton_collection wf true).sound _ b hb).isClosure.has_iff, spells'.reached_iff,
    ((isAutomaton_collection wf false).sound i a ha).isClosure.has_iff, spells.reached_iff]

/-- A word with the cores of a merged state leads to a canonical state that is taken to it. -/
theorem exists_preimage (wf : cfg.WellFormed) (hb : (cfg.collection true)[k]? = some b)
    (spells : cfg.Spells word b.kernel) (viable : cfg.Viable word core) :
    ∃ i a, (cfg.collection false)[i]? = some a ∧ f i = k ∧ cfg.Follows word a := by
  obtain ⟨i, a, -, ha, follows⟩ := (isAutomaton_collection wf false).exists_state viable
  exact ⟨i, a, ha, h.eq_image wf ha hb (follows.spells.has_iff spells), follows⟩

/-- A word with the cores of a canonical state leads to its image. -/
theorem follows_image (wf : cfg.WellFormed) (ha : (cfg.collection false)[i]? = some a)
    (hb : (cfg.collection true)[f i]? = some b) (spells : cfg.Spells word a.kernel) (viable : cfg.Viable word core) :
    cfg.Follows word b := by
  obtain ⟨k, c, -, hc, follows⟩ := (isAutomaton_collection wf true).exists_state viable
  obtain rfl := h.eq_image wf ha hc (spells.has_iff follows.spells)
  cases hb.symm.trans hc
  exact follows

end KeepsCores

/-- **The collection with merged cores is the canonical collection, merged by cores.** -/
theorem exists_isCoreMerge (wf : cfg.WellFormed) : ∃ f, cfg.IsCoreMerge f := by
  obtain ⟨f, keeps⟩ := exists_keepsCores wf
  refine ⟨f, ?_⟩
  constructor
  case image => exact fun i a ha => ⟨keeps i a ha, fun k b hb same => (keeps.eq_image wf ha hb same).symm⟩
  case surjective =>
    intro k b hb
    obtain ⟨word, i, a, ha, spells, follows⟩ := exists_word wf hb false
    exact ⟨i, a, ha, keeps.eq_image wf ha hb (follows.spells.has_iff spells)⟩
  case start => exact keeps.start wf
  case begins => exact exists_start wf
  case transitions => exact fun i a b ha hb => keeps.lookup wf ha hb
  case items_has => exact fun i a b ha hb => keeps.items_has_iff wf ha hb
  case kernel_allows =>
    intro k b hb core t
    constructor
    · intro allows
      obtain ⟨word, spells, item⟩ := (explained_collection wf hb).allows core t allows
      obtain ⟨i, a, ha, image, follows⟩ := keeps.exists_preimage wf hb spells item.kernelCore.viable
      exact ⟨i, a, ha, image, follows.kernel_allows core t item⟩
    · rintro ⟨i, a, ha, rfl, allows⟩
      obtain ⟨word, spells, item⟩ := (explained_collection wf ha).allows core t allows
      exact (keeps.follows_image wf ha hb spells item.kernelCore.viable).kernel_allows core t item
  case items_allows =>
    intro k b hb core t
    constructor
    · intro allows
      obtain ⟨word, spells, valid⟩ := exists_valid_of_allows wf hb allows
      obtain ⟨i, a, ha, image, follows⟩ := keeps.exists_preimage wf hb spells valid.viable
      exact ⟨i, a, ha, image, follows.allows core t valid⟩
    · rintro ⟨i, a, ha, rfl, allows⟩
      obtain ⟨word, spells, valid⟩ := exists_valid_of_allows wf ha allows
      exact (keeps.follows_image wf ha hb spells valid.viable).allows core t valid

/-- Pairs of words `c … c d`: three canonical states differ from another one in their lookaheads only. -/
def pairs : Cfg where
  terminalCount := 4
  nonTerminalCount := 2
  rules := #[⟨0, [.nonTerminal 1, .nonTerminal 1]⟩, ⟨1, [.terminal 2, .nonTerminal 1]⟩, ⟨1, [.terminal 3]⟩]
  start := 0

theorem wellFormed_pairs : pairs.WellFormed where
  errorTerminal_lt := by decide
  start_lt := by decide
  result_lt := by decide
  terminal_lt := by simp [pairs]
  nonTerminal_lt := by simp [pairs]

namespace pairs

/-- The canonical states.  Places 3, 4 and 8 are in the first word of the pair, places 6, 7 and 9 in the second one. -/
def chart : Chart where
  rows := [
    [(⟨3, 0⟩, [0]), (⟨0, 0⟩, [0]), (⟨1, 0⟩, [2, 3]), (⟨2, 0⟩, [2, 3])],
    [(⟨3, 1⟩, [0])],
    [(⟨0, 1⟩, [0]), (⟨1, 0⟩, [0]), (⟨2, 0⟩, [0])],
    [(⟨1, 1⟩, [2, 3]), (⟨1, 0⟩, [2, 3]), (⟨2, 0⟩, [2, 3])],
    [(⟨2, 1⟩, [2, 3])],
    [(⟨0, 2⟩, [0])],
    [(⟨1, 1⟩, [0]), (⟨1, 0⟩, [0]), (⟨2, 0⟩, [0])],
    [(⟨2, 1⟩, [0])],
    [(⟨1, 2⟩, [2, 3])],
    [(⟨1, 2⟩, [0])]]
  moves := [
    ((0, .nonTerminal 0), 1), ((0, .nonTerminal 1), 2), ((0, .terminal 2), 3), ((0, .terminal 3), 4),
    ((2, .nonTerminal 1), 5), ((2, .terminal 2), 6), ((2, .terminal 3), 7),
    ((3, .nonTerminal 1), 8), ((3, .terminal 2), 3), ((3, .terminal 3), 4),
    ((6, .nonTerminal 1), 9), ((6, .terminal 2), 6), ((6, .terminal 3), 7)]

theorem closes_chart : chart.closes pairs := by decide +kernel

theorem valid_first {t : Nat} (ht : t ∈ [2, 3]) : pairs.Valid [] ⟨2, 0⟩ t :=
  have begun : pairs.Viable [] ⟨0, 0⟩ := .expand .start rfl (by decide)
  have first : ∀ t ∈ [2, 3], (pairs.firstOf pairs.firstSets (pairs.behind ⟨0, 0⟩)).1.contains t := by decide +kernel
  .first begun rfl (by decide) (first t ht)

theorem valid_second : pairs.Valid [.nonTerminal 1] ⟨2, 0⟩ endTerminal :=
  have begun : pairs.Valid [] ⟨0, 0⟩ endTerminal := .pass .start rfl (by decide) rfl
  have moved : pairs.Valid [.nonTerminal 1] ⟨0, 1⟩ endTerminal := .advance begun rfl
  .pass moved rfl (by decide) rfl

/-- The canonical state behind the letter d, with the lookaheads that the chart has in its place. -/
theorem exists_state {word : List Symbol} {place : Nat} {ts : List Nat}
    (after : chart.placeAfter (.terminal 3 :: word) = some place) (row : chart.row place = [(⟨2, 1⟩, ts)])
    (viable : pairs.Viable word ⟨2, 0⟩) (valid : ∀ t ∈ ts, pairs.Valid word ⟨2, 0⟩ t) : ∃ (i : Nat) (state : State),
      (pairs.collection false)[i]? = some state ∧ (∀ core, state.kernel.Has core ↔ core = ⟨2, 1⟩) ∧
        ∀ core t, state.kernel.Allows core t ↔ core = ⟨2, 1⟩ ∧ t ∈ ts := by
  have leads : pairs.KernelCore (.terminal 3 :: word) ⟨2, 1⟩ := ⟨_, viable, rfl, rfl⟩
  obtain ⟨i, state, there, hs, follows⟩ := (isAutomaton_collection wellFormed_pairs false).exists_state leads.viable
  refine ⟨i, state, hs, fun core => (follows.spells core).trans ?_, fun core t => ?_⟩
  · exact ⟨fun h => Chart.eq_of_viable closes_chart after row h.viable, fun h => h ▸ leads⟩
  · rw [kernel_allows_iff wellFormed_pairs there hs]
    constructor
    · intro item
      exact ⟨Chart.eq_of_viable closes_chart after row item.valid.viable,
        Chart.mem_of_valid closes_chart after row item.valid⟩
    · rintro ⟨rfl, ht⟩
      exact ⟨_, valid t ht, rfl, rfl⟩

/-- What may follow the letter d in a merged state. -/
theorem mem_of_allows {k t : Nat} {state : State} (hs : (pairs.collection true)[k]? = some state)
    (allows : state.kernel.Allows ⟨2, 1⟩ t) : t ∈ [endTerminal, 2, 3] := by
  obtain ⟨word, -, item⟩ := (explained_collection wellFormed_pairs hs).allows _ t allows
  obtain ⟨place, -, ts, hm, ht⟩ := Chart.exists_allows closes_chart item.valid
  have charted : ∀ place ∈ List.range chart.rows.length, ∀ entry ∈ chart.row place, entry.1 = ⟨2, 1⟩ →
      ∀ t ∈ entry.2, t ∈ [endTerminal, 2, 3] := by decide
  exact charted place (List.mem_range.mpr (Chart.place_lt hm)) _ hm rfl t ht

end pairs

/-- The letter d is followed by another word or by the end of the input.  The canonical states `a` and `b` tell these
apart, the merged state `c` has them together. -/
theorem exists_isCoreMerge_pairs : pairs.WellFormed ∧ ∃ f, pairs.IsCoreMerge f ∧ ∃ (i j : Nat) (a b c : State),
    (pairs.collection false)[i]? = some a ∧ (pairs.collection false)[j]? = some b ∧ i ≠ j ∧
    f i = f j ∧ (pairs.collection true)[f i]? = some c ∧
    (∀ core t, a.kernel.Allows core t ↔ core = ⟨2, 1⟩ ∧ t ∈ [2, 3]) ∧
    (∀ core t, b.kernel.Allows core t ↔ core = ⟨2, 1⟩ ∧ t ∈ [endTerminal]) ∧
    ∀ core t, c.kernel.Allows core t ↔ core = ⟨2, 1⟩ ∧ t ∈ [endTerminal, 2, 3] := by
  obtain ⟨f, merge⟩ := exists_isCoreMerge wellFormed_pairs
  obtain ⟨i, a, ha, cores, allows⟩ := pairs.exists_state rfl rfl (pairs.valid_first List.mem_cons_self).viable
    fun t => pairs.valid_first
  obtain ⟨j, b, hb, cores', allows'⟩ := pairs.exists_state rfl rfl pairs.valid_second.viable
    fun t ht => (List.mem_singleton.mp ht).symm ▸ pairs.valid_second
  obtain ⟨⟨c, hc, same⟩, only⟩ := merge.image i a ha
  obtain ⟨⟨d, hd, same'⟩, -⟩ := merge.image j b hb
  have together : f j = f i :=
    only (f j) d hd fun core => (same' core).trans ((cores' core).trans (cores core).symm)
  have apart : i ≠ j := by
    rintro rfl
    cases ha.symm.trans hb
    have both := (allows' ⟨2, 1⟩ 2).mp ((allows _ 2).mpr ⟨rfl, List.mem_cons_self⟩)
    cases List.mem_singleton.mp both.2
  refine ⟨wellFormed_pairs, f, merge, i, j, a, b, c, ha, hb, apart, together.symm, hc, allows, allows',
    fun core t => ⟨fun h => ?_, ?_⟩⟩
  · obtain rfl := (cores core).mp ((same core).mp h.has)
    exact ⟨rfl, pairs.mem_of_allows hc h⟩
  · rintro ⟨rfl, ht⟩
    rw [merge.kernel_allows (f i) c hc]
    rcases List.mem_cons.mp ht with rfl | ht
    · exact ⟨j, b, hb, together, (allows' _ _).mpr ⟨rfl, List.mem_cons_self⟩⟩
    · exact ⟨i, a, ha, rfl, (allows _ t).mpr ⟨rfl, ht⟩⟩

end Cfg
end TableParsing
