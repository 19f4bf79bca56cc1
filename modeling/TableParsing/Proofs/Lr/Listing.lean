import TableParsing.Proofs.Lr.Reached

/-! # Closures on lists

What the closure of a kernel does, it does to the list of its items: it looks cores up by where they stand, adds to
lookaheads in place, and puts new items behind the others.  So a closure can be made on lists (`items_closure`), where
the order of its items is there to be computed. -/

namespace TableParsing

open Collection (State)

namespace ItemSet
variable (set : ItemSet) {core : Core} {lookahead : TerminalSet}

theorem getElem?_items (i : Nat) : set.items[i]? = set.item? i := by
  rw [items, List.getElem?_zipWith, Numbering.toList, Array.getElem?_toList, Array.getElem?_toList, item?]
  cases set.cores.elements[i]? <;> cases set.lookaheads[i]? <;> rfl

theorem length_items : set.items.length = set.size := by
  rw [items, List.length_zipWith, Numbering.length_toList, Array.length_toList, set.size_lookaheads, Nat.min_self]
  rfl

/-- Where the item with a core stands. -/
def placeIn (items : List Item) (core : Core) : Option Nat := items.findIdx? fun item => item.core = core

theorem position?_eq (core : Core) : set.position? core = placeIn set.items core := by
  refine Option.ext fun i => ?_
  rw [placeIn, List.findIdx?_eq_some_iff_getElem]
  constructor
  · intro place
    obtain ⟨item, hitem, rfl⟩ := set.position?_eq_some_iff.mp place
    obtain ⟨bound, rfl⟩ := List.getElem?_eq_some_iff.mp hitem
    refine ⟨bound, decide_eq_true rfl, fun j before same => Nat.ne_of_lt before ?_⟩
    -- a core stands in one place
    have inside : set.items[j]? = some set.items[j] := List.getElem?_eq_getElem (Nat.lt_trans before bound)
    have place' := set.position?_eq_some_iff.mpr ⟨_, inside, of_decide_eq_true same⟩
    exact Option.some.inj (place'.symm.trans place)
  · rintro ⟨bound, same, -⟩
    exact set.position?_eq_some_iff.mpr ⟨_, List.getElem?_eq_getElem bound, of_decide_eq_true same⟩

/-- The items after an insertion. -/
def insertItem (items : List Item) (core : Core) (lookahead : TerminalSet) : List Item :=
  match placeIn items core with
  | some i => items.modify i fun item => ⟨item.core, item.lookahead.union lookahead⟩
  | none => items ++ [⟨core, lookahead⟩]

theorem items_insert (core : Core) (lookahead : TerminalSet) :
    (set.insert core lookahead).items = insertItem set.items core lookahead := by
  rw [insertItem, ← position?_eq]
  refine List.ext_getElem? fun j => ?_
  rw [getElem?_items, item?, insert]
  split
  · rename_i i known
    simp only [known, List.getElem?_modify, getElem?_items, item?, Array.getElem?_modify]
    cases set.cores.elements[j]? <;> cases set.lookaheads[j]? <;> by_cases same : i = j <;> simp [same]
  · rename_i known
    have absent : set.cores.number? core = none := known
    have size : set.items.length = set.cores.elements.size := set.length_items
    simp only [known, Numbering.elements_insert, absent, Option.isSome_none, Bool.false_eq_true, if_false,
      Array.getElem?_push, set.size_lookaheads]
    by_cases last : j = set.cores.elements.size
    · subst last
      rw [if_pos rfl, if_pos rfl, ← size, List.getElem?_append_right (Nat.le_refl _), Nat.sub_self]
      rfl
    · rw [if_neg last, if_neg last]
      by_cases inside : j < set.items.length
      · rw [List.getElem?_append_left inside, getElem?_items, item?]
      · have behind : set.cores.elements[j]? = none := Array.getElem?_eq_none (by omega)
        rw [behind, List.getElem?_append_right (Nat.le_of_not_lt inside), List.getElem?_eq_none (by simp; omega)]
        rfl

/-- Whether an item with a core has all of a lookahead. -/
def coversIn (items : List Item) (core : Core) (lookahead : TerminalSet) : Bool :=
  items.any fun item => item.core = core && item.lookahead.includes lookahead

theorem covers_eq (core : Core) (lookahead : TerminalSet) :
    set.covers core lookahead = coversIn set.items core lookahead := by
  rw [Bool.eq_iff_iff, covers, coversIn, List.any_eq_true]
  cases found : set.find? core with
  | none =>
    refine iff_of_false (by simp) fun h => set.find?_eq_none_iff.mp found ?_
    obtain ⟨item, hm, h⟩ := h
    exact set.has_iff.mpr ⟨item, hm, of_decide_eq_true (Bool.and_eq_true_iff.mp h).1⟩
  | some item =>
    obtain ⟨hm, rfl⟩ := set.find?_eq_some_iff.mp found
    constructor
    · exact fun h => ⟨item, hm, Bool.and_eq_true_iff.mpr ⟨decide_eq_true rfl, h⟩⟩
    · rintro ⟨other, ho, h⟩
      obtain ⟨same, includes⟩ := Bool.and_eq_true_iff.mp h
      rwa [set.item_ext ho hm (of_decide_eq_true same)] at includes

end ItemSet

/-- A closure in the making, with its items in a list. -/
structure Listing where
  items : List Item
  stack : List Nat
  asked : Array (Option TerminalSet)

namespace Listing

/-- The list of a closure in the making. -/
def ofExpansion (run : Expansion) : Listing := ⟨run.items.items, run.stack, run.asked⟩

/-- Inserts the beginning of a production, as `Expansion.insert` does. -/
def insert (lookahead : TerminalSet) : Listing → Nat → Listing
  | ⟨items, stack, asked⟩, p =>
    if ItemSet.coversIn items ⟨p, 0⟩ lookahead then ⟨items, stack, asked⟩
    else
      let items := ItemSet.insertItem items ⟨p, 0⟩ lookahead
      ⟨items, (ItemSet.placeIn items ⟨p, 0⟩).toList ++ stack, asked⟩

/-- Visits the item at a position, as `Cfg.visit` does. -/
def visit (cfg : Cfg) (known : FirstSets) (position : Nat) (run : Listing) : Listing :=
  match run.items[position]?.bind (cfg.request? known) with
  | some (n, lookahead) =>
    if (run.asked.getD n none).any (·.includes lookahead) then run
    else
      let asked := run.asked.modify n fun known => some ((known.getD ⟨0, 0⟩).union lookahead)
      (cfg.productionsOf n).foldl (insert lookahead) { run with asked }
  | none => run

/-- Visits the items on the stack and those that come up, as `Cfg.visitAll` does. -/
def visitAll (cfg : Cfg) (known : FirstSets) : (visits : Nat) → Listing → List Item
  | 0, run => run.items
  | visits + 1, run =>
    match run.stack with
    | [] => run.items
    | position :: stack => visitAll cfg known visits (visit cfg known position { run with stack })

theorem ofExpansion_insert (lookahead : TerminalSet) (run : Expansion) (p : Nat) :
    ofExpansion (run.insert lookahead p) = (ofExpansion run).insert lookahead p := by
  obtain ⟨items, stack, asked⟩ := run
  rw [Expansion.insert]
  simp only
  by_cases covered : items.covers ⟨p, 0⟩ lookahead
  · rw [if_pos covered]
    exact (if_pos (items.covers_eq _ _ ▸ covered)).symm
  · rw [if_neg covered]
    refine Eq.trans ?_ (if_neg (items.covers_eq _ _ ▸ covered)).symm
    simp only [ofExpansion, ItemSet.position?_eq, ItemSet.items_insert]

theorem ofExpansion_foldl (lookahead : TerminalSet) (run : Expansion) (ps : List Nat) :
    ofExpansion (ps.foldl (Expansion.insert lookahead) run) = ps.foldl (insert lookahead) (ofExpansion run) := by
  induction ps generalizing run with
  | nil => rfl
  | cons p ps ih => rw [List.foldl_cons, List.foldl_cons, ih, ofExpansion_insert]

variable {cfg : Cfg} {known : FirstSets}

theorem ofExpansion_visit (position : Nat) (run : Expansion) :
    ofExpansion (cfg.visit known position run) = visit cfg known position (ofExpansion run) := by
  obtain ⟨items, stack, asked⟩ := run
  have place : (ofExpansion ⟨items, stack, asked⟩).items[position]? = items.item? position :=
    items.getElem?_items position
  rw [Cfg.visit, visit, place]
  cases (items.item? position).bind (cfg.request? known) with
  | none => rfl
  | some request =>
    obtain ⟨n, lookahead⟩ := request
    simp only [Cfg.ask]
    by_cases known : (asked.getD n none).any (·.includes lookahead)
    · rw [if_pos (show Expansion.wasAsked ⟨items, stack, asked⟩ n lookahead = true from known)]
      exact (if_pos known).symm
    · rw [if_neg (show ¬Expansion.wasAsked ⟨items, stack, asked⟩ n lookahead = true from known)]
      exact (ofExpansion_foldl lookahead _ _).trans (if_neg known).symm

theorem items_visitAll (visits : Nat) (run : Expansion) :
    (cfg.visitAll known visits run).items = visitAll cfg known visits (ofExpansion run) := by
  induction visits generalizing run with
  | zero => rfl
  | succ visits ih =>
    obtain ⟨items, stack, asked⟩ := run
    cases stack with
    | nil => rfl
    | cons position stack =>
      change (cfg.visitAll known visits _).items = visitAll cfg known visits (visit cfg known position _)
      rw [ih, ofExpansion_visit]
      rfl

end Listing

namespace Cfg
variable {cfg : Cfg} {known : FirstSets}

/-- **The items of a closure are made as a list.** -/
theorem items_closure (kernel : ItemSet) : (cfg.closure known kernel).items =
    Listing.visitAll cfg known (kernel.items.length + cfg.rules.size * (cfg.terminalCount + 1))
      ⟨kernel.items, (List.range kernel.items.length).reverse, Array.replicate cfg.nonTerminalCount none⟩ := by
  rw [closure, Listing.items_visitAll, kernel.length_items]
  rfl

/-- Nothing leads back to the beginning, so nothing is merged with the first kernel. -/
theorem inherited_startKernel (wf : cfg.WellFormed) (mergeCores : Bool) :
    Collection.Inherited cfg cfg.firstSets mergeCores fun kernel =>
      kernel.Fits cfg ∧ (kernel.Has ⟨cfg.augmented, 0⟩ → kernel = cfg.startKernel) := by
  constructor
  · rintro kernel ⟨fits, -⟩ ⟨symbol, next⟩ ht
    have isKernel := isKernel_of_mem_transitions (isClosure_closure wf (fits_firstSets wf) fits).fits ht
    refine ⟨isKernel.fits, fun has => ?_⟩
    obtain ⟨item, -, -, advance⟩ := (isKernel.has_iff _).mp has
    cases congrArg Core.dot advance
  · rintro - a b ⟨fits, first⟩ ⟨fits', first'⟩ cores grows
    refine ⟨ItemSet.fits_merge fits fits', fun has => absurd ?_ grows⟩
    have has : a.Has ⟨cfg.augmented, 0⟩ := by
      rcases ItemSet.has_merge.mp has with has | has
      · exact has
      · exact (cores _).mp (b.has_iff.mpr has)
    rw [first has, first' ((cores _).mpr has)]
    exact .refl _

/-- **The first state is the closure of the first kernel.** -/
theorem items_first (wf : cfg.WellFormed) {mergeCores : Bool} {state : State}
    (hs : (cfg.collection mergeCores)[0]? = some state) :
    state.items = cfg.closure cfg.firstSets cfg.startKernel := by
  obtain ⟨collection, carries, states⟩ :=
    exists_carries mergeCores (inherited_startKernel wf mergeCores) ⟨fits_startKernel wf, fun _ => rfl⟩
  obtain ⟨closed, -, first⟩ := carries.state 0 state (states 0 ▸ hs)
  obtain ⟨start, hstart, cores, -⟩ := (isAutomaton_collection wf mergeCores).start
  cases hs.symm.trans hstart
  rw [closed, first ((cores _).mpr rfl)]

theorem items_startKernel : cfg.startKernel.items =
    [⟨⟨cfg.augmented, 0⟩, (TerminalSet.ofSize cfg.terminalCount).insert endTerminal⟩] := by
  rw [startKernel, ItemSet.items_insert]
  rfl

end Cfg
end TableParsing
