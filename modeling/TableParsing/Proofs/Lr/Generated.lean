import TableParsing.Proofs.Lr.Collection
import TableParsing.Proofs.Lr.Granted
import TableParsing.Proofs.Lr.Rewriting

/-! # Closures are least

A kernel **generates** items.  An item with the dot in front of a non-terminal yields the beginnings of its productions,
and behind them every terminal that can stand first where the item goes on: in what stands behind the non-terminal, with
the terminal of the item behind that (`Cfg.Generated`).  An item set can have a core and allow no terminal behind it, as
where a non-terminal without words is to follow.  So an item is a core with a terminal or by itself, and by itself it
yields what starts the symbols behind the non-terminal.

**A closure has what its kernel generates and nothing else** (`closesLeast_closure`), in whatever order the items were
visited.  It has each core once, and the items of the kernel stay where they were.  Every item is generated from one
other item, so what two kernels generate together is what either of them generates, and closing commutes with union. -/

namespace TableParsing

namespace Cfg

/-- The items that a kernel generates: cores, each with a terminal that may follow or by itself. -/
inductive Generated (cfg : Cfg) (kernel : ItemSet) : Core → Option Nat → Prop
  | core {core : Core} (h : kernel.Has core) : Generated cfg kernel core none
  | pair {core : Core} {t : Nat} (h : kernel.Allows core t) : Generated cfg kernel core (some t)
  /-- An item yields the beginnings of the productions of the non-terminal behind its dot. -/
  | beginning {core : Core} {after : Option Nat} {p : Nat} {rule : Rule} (h : Generated cfg kernel core after)
      (hp : cfg.rules[p]? = some rule) (next : cfg.nextSymbol? core = some (.nonTerminal rule.result)) :
      Generated cfg kernel ⟨p, 0⟩ none
  /-- Behind them there may be what stands first in a word that is derived from what follows the non-terminal. -/
  | first {core : Core} {after : Option Nat} {p u : Nat} {rule : Rule} {rest : List Symbol}
      (h : Generated cfg kernel core after) (hp : cfg.rules[p]? = some rule)
      (next : cfg.nextSymbol? core = some (.nonTerminal rule.result))
      (derives : cfg.Derives (cfg.behind core ++ after.toList.map .terminal) (.terminal u :: rest)) :
      Generated cfg kernel ⟨p, 0⟩ (some u)

variable {cfg : Cfg} {kernel other union : ItemSet} {core : Core} {after : Option Nat} {symbols : List Symbol}
  {p t u : Nat}

/-! ## Reasons -/

theorem not_starts_nil : ¬cfg.Starts [] t := nofun

theorem starts_terminal_iff : cfg.Starts [.terminal t] u ↔ u = t := by
  constructor
  · rintro ⟨⟩
    rfl
  · rintro rfl
    exact .terminal

/-- What starts a word with a terminal behind it starts the word, or is the terminal if the word can vanish. -/
theorem starts_after_iff : cfg.Starts (symbols ++ after.toList.map .terminal) u ↔
    cfg.Starts symbols u ∨ cfg.Vanishes symbols ∧ after = some u := by
  rw [starts_append_iff]
  refine or_congr_right (and_congr_right fun _ => ?_)
  cases after with
  | none => exact iff_of_false not_starts_nil nofun
  | some t => exact starts_terminal_iff.trans (eq_comm.trans (Option.some_inj.symm))

theorem mem_productionsOf_of_rule {rule : Rule} (hp : cfg.rules[p]? = some rule) : p ∈ cfg.productionsOf rule.result :=
  mem_productionsOf.mpr (resultOf?_eq_some_iff.mpr ⟨rule, hp, rfl⟩)

theorem exists_rule_of_mem_productionsOf {n : Nat} (hp : p ∈ cfg.productionsOf n) :
    ∃ rule, cfg.rules[p]? = some rule ∧ rule.result = n := resultOf?_eq_some_iff.mp (mem_productionsOf.mp hp)

theorem Generated.reached (h : cfg.Generated kernel core after) : cfg.Reached kernel core := by
  induction h with
  | core h => exact .kernel h
  | pair h => exact .kernel h.has
  | beginning _ hp next ih => exact .expand ih next (mem_productionsOf_of_rule hp)
  | first _ hp next _ ih => exact .expand ih next (mem_productionsOf_of_rule hp)

/-- The cores that are generated are those that closing leads to. -/
theorem generated_none_iff : cfg.Generated kernel core none ↔ cfg.Reached kernel core := by
  refine ⟨Generated.reached, fun h => ?_⟩
  induction h with
  | kernel h => exact .core h
  | expand _ next hp ih =>
    obtain ⟨rule, hr, rfl⟩ := exists_rule_of_mem_productionsOf hp
    exact .beginning ih hr next

theorem Generated.granted (wf : cfg.WellFormed) (h : cfg.Generated kernel core after) :
    ∀ t, after = some t → cfg.Granted cfg.firstSets kernel core t := by
  induction h with
  | core => exact nofun
  | pair h =>
    rintro t ⟨⟩
    exact .kernel h
  | beginning => exact nofun
  | @first old after p u rule rest h hp next derives ih =>
    rintro t ⟨⟩
    have hp := mem_productionsOf_of_rule hp
    rcases starts_after_iff.mp (starts_iff_derives.mpr ⟨rest, derives⟩) with starts | ⟨vanishes, same⟩
    · exact .first h.reached next hp ((contains_firstOf_iff wf).mpr starts)
    · exact .pass (ih u same) next hp ((nullable_firstOf_iff wf).mpr vanishes)

/-- The terminals that are generated behind a core are those that closing allows. -/
theorem generated_some_iff (wf : cfg.WellFormed) :
    cfg.Generated kernel core (some t) ↔ cfg.Granted cfg.firstSets kernel core t := by
  refine ⟨fun h => h.granted wf t rfl, fun h => ?_⟩
  have step {old : Core} {after : Option Nat} {n p u : Nat} (h : cfg.Generated kernel old after)
      (next : cfg.nextSymbol? old = some (.nonTerminal n)) (hp : p ∈ cfg.productionsOf n)
      (starts : cfg.Starts (cfg.behind old ++ after.toList.map .terminal) u) :
      cfg.Generated kernel ⟨p, 0⟩ (some u) := by
    obtain ⟨rule, hr, rfl⟩ := exists_rule_of_mem_productionsOf hp
    obtain ⟨rest, derives⟩ := starts_iff_derives.mp starts
    exact .first h hr next derives
  induction h with
  | kernel h => exact .pair h
  | first reached next hp ht =>
    exact step (generated_none_iff.mpr reached) next hp (starts_after_iff.mpr (.inl ((contains_firstOf_iff wf).mp ht)))
  | pass _ next hp nullable ih =>
    exact step ih next hp (starts_after_iff.mpr (.inr ⟨(nullable_firstOf_iff wf).mp nullable, rfl⟩))

end Cfg

/-! ## What a closure keeps -/

section Keeps
variable {cfg : Cfg} {known : FirstSets} {P : ItemSet → Prop}
  (insert : ∀ items core lookahead, P items → P (items.insert core lookahead))
include insert

theorem Expansion.insert_keeps {run : Expansion} (h : P run.items) (lookahead : TerminalSet) (p : Nat) :
    P (run.insert lookahead p).items := by
  by_cases covered : run.items.covers ⟨p, 0⟩ lookahead
  · rwa [Expansion.insert_of_covers covered]
  · rw [Expansion.items_insert covered]
    exact insert _ _ _ h

theorem Cfg.visit_keeps {run : Expansion} (h : P run.items) (position : Nat) :
    P (cfg.visit known position run).items := by
  rw [visit]
  split
  · rename_i n lookahead _
    rw [ask]
    split
    · exact h
    · have noted : P (run.note n lookahead).items := h
      exact List.foldlRecOn (motive := fun run => P run.items) _ (Expansion.insert lookahead) noted
        fun run h p _ => Expansion.insert_keeps insert h lookahead p
  · exact h

/-- **A closure keeps what every insertion keeps.** -/
theorem Cfg.closure_keeps {kernel : ItemSet} (h : P kernel) : P (cfg.closure known kernel) := by
  have all (visits : Nat) : ∀ run : Expansion, P run.items → P (cfg.visitAll known visits run) := by
    induction visits with
    | zero => exact fun _ h => h
    | succ visits ih =>
      rintro ⟨items, stack, asked⟩ h
      cases stack with
      | nil => exact h
      | cons position stack =>
        have rest : P (⟨items, stack, asked⟩ : Expansion).items := h
        exact ih _ (visit_keeps insert rest position)
  exact all _ _ h

end Keeps

/-! ## Unions -/

namespace ItemSet

/-- Whether a set has the cores of two others, each with the terminals that either of them allows. -/
structure IsUnion (set other union : ItemSet) : Prop where
  has_iff : ∀ core, union.Has core ↔ set.Has core ∨ other.Has core
  allows_iff : ∀ core t, union.Allows core t ↔ set.Allows core t ∨ other.Allows core t

theorem isUnion_merge (set other : ItemSet) : set.IsUnion other (set.merge other.items) where
  has_iff core := by rw [has_merge, ← other.has_iff]
  allows_iff core t := allows_merge

end ItemSet

namespace Cfg
variable {cfg : Cfg} {kernel other union : ItemSet} {core : Core} {after : Option Nat}

theorem Generated.mono (has : ∀ core, kernel.Has core → union.Has core)
    (allows : ∀ core t, kernel.Allows core t → union.Allows core t) (h : cfg.Generated kernel core after) :
    cfg.Generated union core after := by
  induction h with
  | core h => exact .core (has _ h)
  | pair h => exact .pair (allows _ _ h)
  | beginning _ hp next ih => exact .beginning ih hp next
  | first _ hp next derives ih => exact .first ih hp next derives

/-- Each item is generated from one other item, so it has its origin in one of the kernels. -/
theorem generated_iff_of_isUnion (h : kernel.IsUnion other union) :
    cfg.Generated union core after ↔ cfg.Generated kernel core after ∨ cfg.Generated other core after := by
  constructor
  · intro generated
    induction generated with
    | core has => exact ((h.has_iff _).mp has).imp .core .core
    | pair allows => exact ((h.allows_iff _ _).mp allows).imp .pair .pair
    | beginning _ hp next ih => exact ih.imp (.beginning · hp next) (.beginning · hp next)
    | first _ hp next derives ih => exact ih.imp (.first · hp next derives) (.first · hp next derives)
  · rintro (generated | generated)
    · exact generated.mono (fun core has => (h.has_iff core).mpr (.inl has))
        fun core t allows => (h.allows_iff core t).mpr (.inl allows)
    · exact generated.mono (fun core has => (h.has_iff core).mpr (.inr has))
        fun core t allows => (h.allows_iff core t).mpr (.inr allows)

/-! ## The closure -/

/-- Whether a set is the least closure of a kernel. -/
structure ClosesLeast (cfg : Cfg) (kernel set : ItemSet) : Prop where
  has_iff : ∀ core, set.Has core ↔ cfg.Generated kernel core none
  allows_iff : ∀ core t, set.Allows core t ↔ cfg.Generated kernel core (some t)
  /-- No core stands there twice. -/
  nodup : (set.items.map Item.core).Nodup
  /-- The items of the kernel stand in front, in their order. -/
  front : kernel.items.map Item.core <+: set.items.map Item.core
  position? : ∀ core i, kernel.position? core = some i → set.position? core = some i

theorem toList_prefix_closure (known : FirstSets) (kernel : ItemSet) :
    kernel.cores.toList <+: (cfg.closure known kernel).cores.toList :=
  closure_keeps (P := fun items => kernel.cores.toList <+: items.cores.toList)
    (fun items core lookahead front => front.trans (items.toList_prefix_cores core lookahead)) (List.prefix_refl _)

/-- **A closure has what its kernel generates**, and the closure of a union is the union of the closures. -/
theorem closesLeast_closure (wf : cfg.WellFormed) (fits : kernel.Fits cfg) :
    cfg.ClosesLeast kernel (cfg.closure cfg.firstSets kernel) ∧
    ∀ other union : ItemSet, other.Fits cfg → union.Fits cfg → kernel.IsUnion other union →
      (cfg.closure cfg.firstSets kernel).IsUnion (cfg.closure cfg.firstSets other) (cfg.closure cfg.firstSets union) := by
  have fitsKnown := fits_firstSets wf
  have has {kernel : ItemSet} (fits : kernel.Fits cfg) (core : Core) :
      (cfg.closure cfg.firstSets kernel).Has core ↔ cfg.Generated kernel core none :=
    (isClosure_closure wf fitsKnown fits).has_iff.trans generated_none_iff.symm
  have allows {kernel : ItemSet} (fits : kernel.Fits cfg) (core : Core) (t : Nat) :
      (cfg.closure cfg.firstSets kernel).Allows core t ↔ cfg.Generated kernel core (some t) :=
    (allows_closure_iff wf fitsKnown fits).trans (generated_some_iff wf).symm
  have front : kernel.cores.toList <+: (cfg.closure cfg.firstSets kernel).cores.toList := toList_prefix_closure _ _
  refine ⟨⟨has fits, allows fits, ItemSet.nodup_map_core_items _, ?_, ?_⟩,
    fun other union fits' fitsUnion isUnion => ⟨fun core => ?_, fun core t => ?_⟩⟩
  · rwa [ItemSet.map_core_items, ItemSet.map_core_items]
  · intro core i place
    exact (Numbering.number?_eq_some_iff _).mpr
      (Numbering.getElem?_of_prefix front ((Numbering.number?_eq_some_iff _).mp place))
  · rw [has fitsUnion, has fits, has fits', generated_iff_of_isUnion isUnion]
  · rw [allows fitsUnion, allows fits, allows fits', generated_iff_of_isUnion isUnion]

/-- A left-recursive non-terminal in front of one without words: `0 → 1 2`, `1 → 1 x` and `1 →`, `2 → 2`. -/
def endless : Cfg where
  terminalCount := 4
  nonTerminalCount := 3
  rules := #[⟨0, [.nonTerminal 1, .nonTerminal 2]⟩, ⟨1, [.nonTerminal 1, .terminal 2]⟩, ⟨1, []⟩, ⟨2, [.nonTerminal 2]⟩]
  start := 0

theorem wellFormed_endless : endless.WellFormed where
  errorTerminal_lt := by decide
  start_lt := by decide
  result_lt := by simp [endless]
  terminal_lt := by simp [endless]
  nonTerminal_lt := by simp [endless]

/-- Nothing can follow the first non-terminal, but the terminal `x` can where that comes up once more, so it can behind
all of its productions.  Another kernel for the same core changes what may follow the whole. -/
theorem closesLeast_closure_endless :
    let kernel := endless.startKernel
    let other := ItemSet.empty.insert ⟨4, 0⟩ ((TerminalSet.ofSize 4).insert 3)
    let union := kernel.merge other.items
    let closure := endless.closure endless.firstSets
    endless.WellFormed ∧ (kernel.Fits endless ∧ other.Fits endless ∧ union.Fits endless) ∧ kernel.IsUnion other union ∧
    endless.ClosesLeast kernel (closure kernel) ∧ (closure kernel).IsUnion (closure other) (closure union) ∧
    (closure kernel).Allows ⟨2, 0⟩ 2 := by
  intro kernel other union closure
  have fits : kernel.Fits endless := fits_startKernel wellFormed_endless
  have fitsLookahead : ((TerminalSet.ofSize 4).insert 3).Fits endless.terminalCount :=
    (TerminalSet.fits_ofSize 4).insert (by decide)
  have fits' : other.Fits endless := ItemSet.fits_empty.insert (isCore_zero (by decide)) fitsLookahead
  have fitsUnion : union.Fits endless := ItemSet.fits_merge fits fits'
  have isUnion := kernel.isUnion_merge other
  obtain ⟨least, unions⟩ := closesLeast_closure wellFormed_endless fits
  have start : endless.Generated kernel ⟨4, 0⟩ none := .core (ItemSet.has_insert _ |>.mpr (.inr rfl))
  have whole : endless.Generated kernel ⟨0, 0⟩ none := start.beginning rfl rfl
  have recursive : endless.Generated kernel ⟨1, 0⟩ none := whole.beginning rfl rfl
  have empty : endless.Generated kernel ⟨2, 0⟩ (some 2) := recursive.first rfl rfl .refl
  exact ⟨wellFormed_endless, ⟨fits, fits', fitsUnion⟩, isUnion, least, unions other union fits' fitsUnion isUnion,
    (least.allows_iff _ _).mpr empty⟩

end Cfg
end TableParsing
