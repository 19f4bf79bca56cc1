import TableParsing.Proofs.Lr.Exactness

/-! # Words that lead to a state

Every state of a collection is led to by a word (`exists_stateAfter`), and two words lead to one state exactly if they
bring the same: the same cores, and where cores are not merged, the same terminals behind them (`stateAfter_eq_iff`).
So what a state has and what it allows is told by the words that lead to it (`allows_iff_exists_valid`), and nothing of
it depends on the order in which a collection was made. -/

namespace TableParsing

open Collection (Key State)

namespace Cfg
variable {cfg : Cfg} {mergeCores : Bool} {word other : List Symbol} {i j : Nat} {state : State} {kernel : ItemSet}
  {core : Core} {t : Nat}

/-! ## Kernels of words -/

/-- Whether a kernel is what a word brings. -/
structure Brings (cfg : Cfg) (word : List Symbol) (kernel : ItemSet) : Prop where
  fits : kernel.Fits cfg
  spells : cfg.Spells word kernel
  allows_iff : ∀ core t, kernel.Allows core t ↔ cfg.KernelItem word core t

/-- Closing what a word brings allows what is valid for it. -/
theorem Brings.closure_allows_iff (wf : cfg.WellFormed) (h : cfg.Brings word kernel) :
    (cfg.closure cfg.firstSets kernel).Allows core t ↔ cfg.Valid word core t := by
  rw [allows_closure_iff wf (fits_firstSets wf) h.fits]
  exact ⟨h.spells.valid_of_granted fun core t => (h.allows_iff core t).mp,
    h.spells.granted fun core t => (h.allows_iff core t).mpr⟩

/-- The kernel behind a symbol is what the longer word brings. -/
theorem Brings.cons {symbol : Symbol} {next : ItemSet} (wf : cfg.WellFormed) (h : cfg.Brings word kernel)
    (isKernel : cfg.IsKernel symbol (cfg.closure cfg.firstSets kernel).items next) :
    cfg.Brings (symbol :: word) next := by
  refine ⟨isKernel.fits, h.spells.cons isKernel (isClosure_closure wf (fits_firstSets wf) h.fits), fun core t => ?_⟩
  rw [isKernel.allows_iff, KernelItem]
  constructor
  · rintro ⟨item, hm, hsymbol, advance, ht⟩
    exact ⟨item.core, (h.closure_allows_iff wf).mp (ItemSet.allows_of_mem _ hm ht), hsymbol, advance⟩
  · rintro ⟨old, valid, hsymbol, advance⟩
    obtain ⟨item, hm, rfl, ht⟩ := (h.closure_allows_iff wf).mpr valid
    exact ⟨item, hm, hsymbol, advance, ht⟩

theorem brings_startKernel (wf : cfg.WellFormed) : cfg.Brings [] cfg.startKernel := by
  refine ⟨fits_startKernel wf, fun core => has_startKernel, fun core t => ?_⟩
  simp only [startKernel, ItemSet.allows_insert, ItemSet.not_allows_empty, TerminalSet.contains_insert,
    TerminalSet.contains_ofSize, Bool.false_eq_true, false_or]
  rfl

/-- **Every kernel that is not merged is what a word brings.** -/
theorem exists_brings (wf : cfg.WellFormed) (hs : (cfg.collection false)[i]? = some state) :
    ∃ word, cfg.Brings word state.kernel := by
  have inherited : Collection.Inherited cfg cfg.firstSets false fun kernel => ∃ word, cfg.Brings word kernel := by
    refine ⟨?_, nofun⟩
    rintro kernel ⟨word, h⟩ ⟨symbol, next⟩ ht
    have closure := isClosure_closure wf (fits_firstSets wf) h.fits
    exact ⟨symbol :: word, h.cons wf (isKernel_of_mem_transitions closure.fits ht)⟩
  obtain ⟨collection, carries, states⟩ := exists_carries false inherited ⟨[], brings_startKernel wf⟩
  exact (carries.state i state (states i ▸ hs)).2

/-! ## States after words -/

/-- Whether two words bring the same: the same cores, and the same terminals behind them where cores are kept apart. -/
structure Alike (cfg : Cfg) (mergeCores : Bool) (word other : List Symbol) : Prop where
  cores : ∀ core, cfg.KernelCore word core ↔ cfg.KernelCore other core
  items : mergeCores = false → ∀ core t, cfg.KernelItem word core t ↔ cfg.KernelItem other core t

/-- What a canonical state after a word has for a kernel is what the word brings. -/
theorem brings_of_stateAfter (wf : cfg.WellFormed) (after : stateAfter (cfg.collection false) word = some i)
    (hs : (cfg.collection false)[i]? = some state) : cfg.Brings word state.kernel := by
  obtain ⟨state', hs', follows⟩ := (isAutomaton_collection wf false).follows after
  cases hs.symm.trans hs'
  exact ⟨(explained_collection wf hs).fits, follows.spells,
    fun core t => ⟨kernelItem_of_allows wf after hs, follows.kernel_allows core t⟩⟩

/-- Kernels that are the same item by item have the same key. -/
theorem Brings.ofKernel_eq {kernel' : ItemSet} (h : cfg.Brings word kernel) (h' : cfg.Brings other kernel')
    (alike : cfg.Alike false word other) : Key.ofKernel mergeCores kernel = Key.ofKernel mergeCores kernel' := by
  refine Key.ofKernel_eq_of_holds h.fits h'.fits ?_
  rintro ⟨core, _ | t⟩
  · exact (h.spells core).trans ((alike.cores core).trans (h'.spells core).symm)
  · exact (h.allows_iff core t).trans ((alike.items rfl core t).trans (h'.allows_iff core t).symm)

/-- A word that brings what another one does leads where that one leads. -/
theorem Alike.stateAfter_eq (wf : cfg.WellFormed) (alike : cfg.Alike mergeCores word other)
    (after : stateAfter (cfg.collection mergeCores) word = some i) :
    stateAfter (cfg.collection mergeCores) other = some i := by
  have automaton := isAutomaton_collection wf mergeCores
  obtain ⟨state, hs, follows⟩ := automaton.follows after
  obtain ⟨core, hc⟩ := automaton.exists_core hs
  have viable := ((alike.cores core).mp ((follows.spells core).mp hc)).viable
  obtain ⟨j, state', after', hs', follows'⟩ := automaton.exists_state viable
  have same : i = j := by
    cases mergeCores with
    | true =>
      exact eq_of_has_iff wf hs hs' fun core =>
        (follows.spells core).trans ((alike.cores core).trans (follows'.spells core).symm)
    | false =>
      exact eq_of_ofKernel_eq wf hs hs'
        ((brings_of_stateAfter wf after hs).ofKernel_eq (brings_of_stateAfter wf after' hs') alike)
  exact same ▸ after'

/-- **Words lead to one state exactly if they bring the same.** -/
theorem stateAfter_eq_iff (wf : cfg.WellFormed) (after : stateAfter (cfg.collection mergeCores) word = some i) :
    stateAfter (cfg.collection mergeCores) other = some i ↔ cfg.Alike mergeCores word other := by
  refine ⟨fun after' => ?_, fun alike => alike.stateAfter_eq wf after⟩
  have automaton := isAutomaton_collection wf mergeCores
  obtain ⟨state, hs, follows⟩ := automaton.follows after
  obtain ⟨state', hs', follows'⟩ := automaton.follows after'
  cases hs.symm.trans hs'
  refine ⟨fun core => (follows.spells core).symm.trans (follows'.spells core), ?_⟩
  rintro rfl core t
  exact ((brings_of_stateAfter wf after hs).allows_iff core t).symm.trans
    ((brings_of_stateAfter wf after' hs).allows_iff core t)

/-- **Every state is led to by a word.** -/
theorem exists_stateAfter (wf : cfg.WellFormed) (hs : (cfg.collection mergeCores)[i]? = some state) :
    ∃ word, stateAfter (cfg.collection mergeCores) word = some i := by
  have automaton := isAutomaton_collection wf mergeCores
  obtain ⟨core, hc⟩ := automaton.exists_core hs
  cases mergeCores with
  | true =>
    obtain ⟨word, spells⟩ := (explained_collection wf hs).spelled
    obtain ⟨j, state', after, hs', follows⟩ := automaton.exists_state ((spells core).mp hc).viable
    have same : j = i := eq_of_has_iff wf hs' hs (spells.has_iff follows.spells)
    exact ⟨word, same ▸ after⟩
  | false =>
    obtain ⟨word, brings⟩ := exists_brings wf hs
    obtain ⟨j, state', after, hs', follows⟩ := automaton.exists_state ((brings.spells core).mp hc).viable
    have same : j = i := eq_of_ofKernel_eq wf hs' hs
      ((brings_of_stateAfter wf after hs').ofKernel_eq brings ⟨fun _ => .rfl, fun _ _ _ => .rfl⟩)
    exact ⟨word, same ▸ after⟩

/-- **A state allows what is valid for the words that lead to it**, and nothing else. -/
theorem allows_iff_exists_valid (wf : cfg.WellFormed) (hs : (cfg.collection mergeCores)[i]? = some state) :
    state.items.Allows core t ↔
      ∃ word, stateAfter (cfg.collection mergeCores) word = some i ∧ cfg.Valid word core t := by
  constructor
  · intro allows
    obtain ⟨word, after⟩ := exists_stateAfter wf hs
    exact exists_valid_after wf after hs allows
  · rintro ⟨word, after, valid⟩
    obtain ⟨state', hs', follows⟩ := (isAutomaton_collection wf mergeCores).follows after
    cases hs.symm.trans hs'
    exact follows.allows core t valid

end Cfg
end TableParsing
