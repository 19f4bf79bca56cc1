import Mathlib.Algebra.GroupWithZero.Nat
import Mathlib.Data.Finset.Powerset
import TableParsing.Proofs.Lr.Transitions

/-! # Keys tell kernels apart

The key of a kernel is a sorted list without repetition, so it does not depend on the order in which the
kernel was made.  Kernels that **say the same** of all cores have the same key; this is why there are no more
states than sets of facts (`length_le_of_nodup_keys`), which bounds the growth of a collection. -/

namespace TableParsing

namespace Core
variable {a b c : Core}

theorem le_iff : a.le b ↔
    a.production < b.production ∨ a.production = b.production ∧ a.dot ≤ b.dot := by
  simp [le]

theorem le_trans (h : a.le b) (h' : b.le c) : a.le c := by
  rw [le_iff] at h h' ⊢
  omega

theorem le_total (a b : Core) : a.le b || b.le a := by
  rw [Bool.or_eq_true, le_iff, le_iff]
  omega

theorem le_antisymm (h : a.le b) (h' : b.le a) : a = b := by
  rw [le_iff] at h h'
  obtain ⟨p, d⟩ := a
  obtain ⟨q, e⟩ := b
  simp only at h h'
  have : p = q ∧ d = e := by omega
  rw [this.1, this.2]

end Core

namespace ItemSet
variable {set other : ItemSet} {cfg : Cfg}

theorem map_core_items (set : ItemSet) : set.items.map Item.core = set.cores.toList := by
  refine List.ext_getElem? fun i => ?_
  rw [List.getElem?_map, items, List.getElem?_zipWith, Numbering.toList, Array.getElem?_toList,
    Array.getElem?_toList]
  by_cases hi : i < set.cores.elements.size
  · have hl : i < set.lookaheads.size := set.size_lookaheads.symm ▸ hi
    rw [Array.getElem?_eq_getElem hi, Array.getElem?_eq_getElem hl]
    rfl
  · have hl : ¬i < set.lookaheads.size := set.size_lookaheads.symm ▸ hi
    rw [Array.getElem?_eq_none (Nat.le_of_not_lt hi), Array.getElem?_eq_none (Nat.le_of_not_lt hl)]
    rfl

/-- No core has two items. -/
theorem nodup_map_core_items (set : ItemSet) : (set.items.map Item.core).Nodup := by
  rw [map_core_items]
  exact set.cores.nodup_toList

theorem nodup_items (set : ItemSet) : set.items.Nodup := set.nodup_map_core_items.of_map Item.core

/-- The position of a core is the place of its item. -/
theorem position?_eq_some_iff {core : Core} {i : Nat} :
    set.position? core = some i ↔ ∃ item, set.items[i]? = some item ∧ item.core = core := by
  have place : set.position? core = some i ↔ set.cores.elements[i]? = some core := set.cores.number?_eq_some_iff
  have there : set.cores.elements[i]? = set.items[i]?.map Item.core := by
    rw [← List.getElem?_map, map_core_items, Numbering.toList, Array.getElem?_toList]
  rw [place, there, Option.map_eq_some_iff]

theorem pairwise_sortedCores (set : ItemSet) : set.sortedCores.Pairwise fun a b => a.le b := by
  rw [sortedCores]
  apply List.pairwise_mergeSort
  · exact fun _ _ _ => Core.le_trans
  · exact Core.le_total

theorem pairwise_sortedItems (set : ItemSet) : set.sortedItems.Pairwise fun a b => a.core.le b.core := by
  rw [sortedItems]
  refine @List.pairwise_mergeSort Item (fun a b => a.core.le b.core) ?_ ?_ _
  · exact fun _ _ _ => Core.le_trans
  · exact fun a b => Core.le_total a.core b.core

theorem sortedCores_eq (h : ∀ core, set.Has core ↔ other.Has core) :
    set.sortedCores = other.sortedCores := by
  have perm : set.sortedCores.Perm other.sortedCores :=
    (List.mergeSort_perm _ _).trans
      (((List.perm_ext_iff_of_nodup set.cores.nodup_toList other.cores.nodup_toList).mpr h).trans
        (List.mergeSort_perm _ _).symm)
  exact perm.eq_of_pairwise (fun _ _ _ _ => Core.le_antisymm) set.pairwise_sortedCores
    other.pairwise_sortedCores

theorem sortedItems_eq (h : ∀ item, item ∈ set.items ↔ item ∈ other.items) :
    set.sortedItems = other.sortedItems := by
  have perm : set.sortedItems.Perm other.sortedItems :=
    (List.mergeSort_perm _ _).trans
      (((List.perm_ext_iff_of_nodup set.nodup_items other.nodup_items).mpr h).trans
        (List.mergeSort_perm _ _).symm)
  refine perm.eq_of_pairwise (fun a b ha hb hab hba => ?_) set.pairwise_sortedItems
    other.pairwise_sortedItems
  exact set.item_ext (set.mem_sortedItems.mp ha) ((h b).mpr (other.mem_sortedItems.mp hb))
    (Core.le_antisymm hab hba)

/-- Sets whose lookaheads fit and which say the same have the same items. -/
theorem LookaheadsFit.mem_items_of_holds {terminals : Nat} (fits : set.LookaheadsFit terminals)
    (fits' : other.LookaheadsFit terminals) (h : ∀ fact, set.Holds fact ↔ other.Holds fact) {item : Item}
    (hm : item ∈ set.items) : item ∈ other.items := by
  obtain ⟨twin, hm', same⟩ := other.has_iff.mp ((h (item.core, 0)).mp (set.has_iff.mpr ⟨item, hm, rfl⟩))
  have lookahead : item.lookahead = twin.lookahead := by
    refine (fits item hm).ext (fits' twin hm') fun t => ?_
    rw [← set.allows_iff_of_mem hm, ← other.allows_iff_of_mem hm', same]
    exact h (item.core, t + 1)
  obtain ⟨core, lookahead'⟩ := item
  obtain ⟨core', lookahead''⟩ := twin
  cases same
  cases lookahead
  exact hm'

/-- Sets whose lookaheads fit and which say the same have the same items in order. -/
theorem LookaheadsFit.sortedItems_eq {terminals : Nat} (fits : set.LookaheadsFit terminals)
    (fits' : other.LookaheadsFit terminals) (h : ∀ fact, set.Holds fact ↔ other.Holds fact) :
    set.sortedItems = other.sortedItems :=
  ItemSet.sortedItems_eq fun _ =>
    ⟨fits.mem_items_of_holds fits' h, fits'.mem_items_of_holds fits fun fact => (h fact).symm⟩

end ItemSet

namespace Collection.Key
variable {mergeCores : Bool} {set other : ItemSet} {cfg : Cfg}

theorem ofKernel_eq_of_holds (fits : set.Fits cfg) (fits' : other.Fits cfg)
    (h : ∀ fact, set.Holds fact ↔ other.Holds fact) : ofKernel mergeCores set = ofKernel mergeCores other := by
  rw [ofKernel, ofKernel, ItemSet.sortedCores_eq fun core => h (core, 0),
    fits.lookaheads.sortedItems_eq fits'.lookaheads h]

theorem ofKernel_eq_of_has (h : ∀ core, set.Has core ↔ other.Has core) :
    ofKernel true set = ofKernel true other := congrArg Key.cores (ItemSet.sortedCores_eq h)

theorem mem_items_iff_of_ofKernel_eq (h : ofKernel false set = ofKernel false other) (item : Item) :
    item ∈ set.items ↔ item ∈ other.items := by
  have same : set.sortedItems = other.sortedItems := Key.items.inj h
  rw [← set.mem_sortedItems, same, other.mem_sortedItems]

/-- Kernels with the same key have the same cores, merged or not. -/
theorem has_iff_of_ofKernel_eq (h : ofKernel mergeCores set = ofKernel mergeCores other) (core : Core) :
    set.Has core ↔ other.Has core := by
  cases mergeCores with
  | false => simp only [ItemSet.has_iff, mem_items_iff_of_ofKernel_eq h]
  | true =>
    have same : set.sortedCores = other.sortedCores := Key.cores.inj h
    rw [← set.mem_sortedCores, same, other.mem_sortedCores]

end Collection.Key

/-! ## The number of kernels -/

namespace Cfg
variable {cfg : Cfg}

/-- All cores of the grammar. -/
def allCores (cfg : Cfg) : List Core :=
  (List.range (cfg.rules.size + 1)).flatMap fun p =>
    (List.range ((cfg.symbolsOf p).length + 1)).map fun dot => ⟨p, dot⟩

theorem mem_allCores {core : Core} : core ∈ cfg.allCores ↔ cfg.IsCore core := by
  obtain ⟨p, dot⟩ := core
  simp only [allCores, IsCore, List.mem_flatMap, List.mem_map, List.mem_range, Nat.lt_succ_iff, Core.mk.injEq]
  exact ⟨fun ⟨_, hp, _, hdot, rfl, rfl⟩ => ⟨hp, hdot⟩, fun ⟨hp, hdot⟩ => ⟨p, hp, dot, hdot, rfl, rfl⟩⟩

theorem coreCount_eq_sum :
    cfg.coreCount = (cfg.rules.toList.map fun rule => rule.symbols.length + 1).sum + 2 := by
  rw [coreCount]
  induction cfg.rules.toList with
  | nil => rfl
  | cons rule rules ih =>
    rw [List.foldr_cons, List.map_cons, List.sum_cons, ih]
    omega

theorem length_allCores : cfg.allCores.length = cfg.coreCount := by
  have lengths : (List.range cfg.rules.size).map (fun p => (cfg.symbolsOf p).length + 1) =
      cfg.rules.toList.map fun rule => rule.symbols.length + 1 := by
    refine List.ext_getElem (by simp) fun p hp hp' => ?_
    have hr : p < cfg.rules.size := by simpa using hp
    simp [symbolsOf_rule (Array.getElem?_eq_getElem hr)]
  have last : (cfg.symbolsOf cfg.rules.size).length + 1 = 2 := by
    have : cfg.symbolsOf cfg.rules.size = [.nonTerminal cfg.start] := symbolsOf_augmented
    rw [this]
    rfl
  rw [allCores, List.length_flatMap, coreCount_eq_sum, List.range_succ, List.map_append, List.sum_append]
  simp only [List.length_map, List.length_range, lengths, List.map_cons, List.map_nil, last]
  rfl

/-- All that kernels can say. -/
def kernelFacts (cfg : Cfg) : List (Core × Nat) := ItemSet.facts cfg.allCores cfg.terminalCount

theorem length_kernelFacts : cfg.kernelFacts.length = cfg.coreCount * (cfg.terminalCount + 1) := by
  rw [kernelFacts, ItemSet.length_facts, length_allCores]

theorem mem_kernelFacts_of_holds {set : ItemSet} (fits : set.Fits cfg) :
    ∀ {fact : Core × Nat}, set.Holds fact → fact ∈ cfg.kernelFacts
  | (_, 0), h => ItemSet.mem_facts.mpr ⟨mem_allCores.mpr (fits.isCore h), Nat.succ_pos _⟩
  | (core, t + 1), h => by
    have h : set.Allows core t := h
    exact ItemSet.mem_facts.mpr
      ⟨mem_allCores.mpr (fits.isCore h.has), Nat.succ_lt_succ (fits.lt_of_allows h)⟩

/-- **There are no more keys than sets of facts.** -/
theorem length_le_of_nodup_keys {mergeCores : Bool} {kernels : List ItemSet}
    (fits : ∀ kernel ∈ kernels, kernel.Fits cfg)
    (nodup : (kernels.map (Collection.Key.ofKernel mergeCores)).Nodup) :
    kernels.length ≤ 2 ^ (cfg.coreCount * (cfg.terminalCount + 1)) := by
  classical
  let said (kernel : ItemSet) : Finset (Core × Nat) := cfg.kernelFacts.toFinset.filter kernel.Holds
  have mem_said {kernel : ItemSet} (hk : kernel ∈ kernels) (fact : Core × Nat) :
      fact ∈ said kernel ↔ kernel.Holds fact := by
    rw [Finset.mem_filter, List.mem_toFinset]
    exact and_iff_right_of_imp (mem_kernelFacts_of_holds (fits kernel hk))
  have distinct : (kernels.map said).Nodup := by
    rw [List.Nodup, List.pairwise_map] at nodup ⊢
    refine nodup.imp_of_mem fun {a b} ha hb differ same => differ ?_
    refine Collection.Key.ofKernel_eq_of_holds (fits a ha) (fits b hb) fun fact => ?_
    rw [← mem_said ha, ← mem_said hb, same]
  have subset : (kernels.map said).toFinset ⊆ cfg.kernelFacts.toFinset.powerset := by
    intro set hs
    obtain ⟨kernel, -, rfl⟩ := List.mem_map.mp (List.mem_toFinset.mp hs)
    exact Finset.mem_powerset.mpr (Finset.filter_subset _ _)
  have card := Finset.card_le_card subset
  rw [List.toFinset_card_of_nodup distinct, List.length_map, Finset.card_powerset] at card
  refine Nat.le_trans card (Nat.pow_le_pow_right (by decide) ?_)
  rw [← length_kernelFacts]
  exact List.toFinset_card_le _

end Cfg
end TableParsing
