import TableParsing.Proofs.Lr.Kernels

/-! # States allow what is valid

In the canonical collection the state after a word allows **exactly what is valid for the word**
(`allows_iff_valid`), since a transition enters the very kernel that it brings.  In the merged collection a state also
allows what is valid for other words, but only for words that lead to the same state.  So either way a terminal that a
state allows is valid for some word that leads there (`exists_valid_after`). -/

namespace TableParsing

open Collection (State)

namespace Cfg
variable {cfg : Cfg} {mergeCores : Bool} {word : List Symbol} {i : Nat} {state : State} {kernel : ItemSet}
  {core : Core} {t : Nat}

/-- Closing the kernel of a word allows no more than what is valid, if the kernel does not. -/
theorem Spells.valid_of_granted (spells : cfg.Spells word kernel)
    (allows : ∀ core t, kernel.Allows core t → cfg.KernelItem word core t)
    (granted : cfg.Granted cfg.firstSets kernel core t) : cfg.Valid word core t := by
  induction granted with
  | kernel h => exact (allows _ _ h).valid
  | first reached next hp ht => exact .first (spells.reached_iff.mp reached) next hp ht
  | pass _ next hp nullable ih => exact .pass ih next hp nullable

/-- **The canonical state after a word allows exactly what is valid for it**, if its kernel does. -/
theorem allows_iff_of_kernel (wf : cfg.WellFormed) (hs : (cfg.collection false)[i]? = some state)
    (follows : cfg.Follows word state) (allows : ∀ core t, state.kernel.Allows core t → cfg.KernelItem word core t) :
    state.items.Allows core t ↔ cfg.Valid word core t := by
  refine ⟨fun h => ?_, follows.allows core t⟩
  rw [items_collection wf hs] at h
  have fits := (explained_collection wf hs).fits
  exact follows.spells.valid_of_granted allows ((allows_closure_iff wf (fits_firstSets wf) fits).mp h)

/-- The kernel of the beginning allows nothing but the end of the input behind the added production. -/
theorem kernelItem_nil_of_allows (wf : cfg.WellFormed) (hs : (cfg.collection mergeCores)[0]? = some state)
    (spells : cfg.Spells [] state.kernel) (h : state.kernel.Allows core t) : cfg.KernelItem [] core t := by
  obtain ⟨other, -, item⟩ := (explained_collection wf hs).allows core t h
  cases other with
  | nil => exact item
  | cons symbol other =>
    -- a core that has moved on is none of the beginning
    obtain ⟨old, -, -, rfl⟩ := item
    cases congrArg Core.dot ((spells _).mp h.has)

theorem kernelItem_of_allows (wf : cfg.WellFormed) (after : stateAfter (cfg.collection false) word = some i)
    (hs : (cfg.collection false)[i]? = some state) (h : state.kernel.Allows core t) : cfg.KernelItem word core t := by
  have automaton := isAutomaton_collection wf false
  induction word generalizing i state core t with
  | nil =>
    obtain ⟨state', hs', follows⟩ := automaton.follows after
    cases hs.symm.trans hs'
    cases after
    exact kernelItem_nil_of_allows wf hs follows.spells h
  | cons symbol word ih =>
    obtain ⟨j, before, after⟩ := Option.bind_eq_some_iff.mp after
    obtain ⟨old, hold, leads⟩ := Option.bind_eq_some_iff.mp after
    obtain ⟨next, kernel, hnext, isKernel, same⟩ := exists_isKernel wf hold leads
    cases hs.symm.trans hnext
    obtain ⟨old', hold', follows⟩ := automaton.follows before
    cases hold.symm.trans hold'
    obtain ⟨item, hm, hsymbol, advance, ht⟩ := (isKernel.allows_iff core t).mp ((same core t).mp h)
    have valid := (allows_iff_of_kernel wf hold follows fun core t => ih before hold).mp
      (ItemSet.allows_of_mem _ hm ht)
    exact ⟨item.core, valid, hsymbol, advance⟩

/-- **The kernel of a canonical state allows exactly what the latest symbol of a word brings.** -/
theorem kernel_allows_iff (wf : cfg.WellFormed) (after : stateAfter (cfg.collection false) word = some i)
    (hs : (cfg.collection false)[i]? = some state) : state.kernel.Allows core t ↔ cfg.KernelItem word core t := by
  obtain ⟨state', hs', follows⟩ := (isAutomaton_collection wf false).follows after
  cases hs.symm.trans hs'
  exact ⟨kernelItem_of_allows wf after hs, follows.kernel_allows core t⟩

/-- **A canonical state allows exactly what is valid for the words that lead to it.** -/
theorem allows_iff_valid (wf : cfg.WellFormed) (after : stateAfter (cfg.collection false) word = some i)
    (hs : (cfg.collection false)[i]? = some state) : state.items.Allows core t ↔ cfg.Valid word core t := by
  obtain ⟨state', hs', follows⟩ := (isAutomaton_collection wf false).follows after
  cases hs.symm.trans hs'
  exact allows_iff_of_kernel wf hs follows fun core t => kernelItem_of_allows wf after hs

/-- **What a state allows is valid for some word that leads to it**, whether cores are merged or not. -/
theorem exists_valid_after (wf : cfg.WellFormed) (after : stateAfter (cfg.collection mergeCores) word = some i)
    (hs : (cfg.collection mergeCores)[i]? = some state) (h : state.items.Allows core t) :
    ∃ other, stateAfter (cfg.collection mergeCores) other = some i ∧ cfg.Valid other core t := by
  cases mergeCores with
  | false => exact ⟨word, after, (allows_iff_valid wf after hs).mp h⟩
  | true =>
    obtain ⟨other, spells, valid⟩ := exists_valid_of_allows wf hs h
    obtain ⟨k, found, there, hfound, follows⟩ := (isAutomaton_collection wf true).exists_state valid.viable
    -- the state that the word leads to has the same cores
    have same := eq_of_has_iff wf hs hfound (follows.spells.has_iff spells)
    exact ⟨other, same ▸ there, valid⟩

end Cfg
end TableParsing
