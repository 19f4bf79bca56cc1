import TableParsing.Proofs.Lr.Prefix

/-! # What all kernels have in common

A collection grows kernel by kernel: a new kernel is what a symbol leads to from the closure of an old one, and a kernel
is merged only into one with the same cores.  So **what holds of the first kernel, and is kept both ways, holds of
all of them** (`Collection.Carries`), and no two states have the same key.

In particular every kernel has the cores of some word of symbols, and whatever it allows is valid for such a word
(`explained_collection`): merging brings no terminal that none of the merged words has.  Where cores are not merged a
kernel stays what it is, and a transition enters just the kernel that it leads to (`exists_isKernel`). -/

namespace TableParsing

open Collection (Key State)

namespace Collection
variable {cfg : Cfg} {known : FirstSets} {mergeCores : Bool} {P : ItemSet → Prop} {collection : Collection}
  {state : State} {kernel : ItemSet} {i source target : Nat}

/-- Whether what holds of a kernel holds of all that it leads to, and of what it becomes
where kernels are merged. -/
structure Inherited (cfg : Cfg) (known : FirstSets) (mergeCores : Bool) (P : ItemSet → Prop) : Prop where
  leads : ∀ kernel, P kernel → ∀ transition ∈ cfg.transitions (cfg.closure known kernel), P transition.2
  merges : mergeCores = true → ∀ a b, P a → P b → (∀ core, b.Has core ↔ a.Has core) → ¬b.Le a → P (a.merge b.items)

/-- Whether a symbol leads from some items to a kernel with the key of a state. -/
def Enters (cfg : Cfg) (mergeCores : Bool) (states : Array State) (items : ItemSet) (symbol : Symbol) (target : Nat) :
    Prop :=
  ∃ kernel next, (symbol, kernel) ∈ cfg.transitions items ∧ states[target]? = some next ∧
    Key.ofKernel mergeCores next.kernel = Key.ofKernel mergeCores kernel

/-- **The invariant.**  The states are the closures of kernels with the property, numbered by their keys.  Where cores
are not merged, kernels stay what they are, so each transition enters the state of its kernel. -/
structure Carries (cfg : Cfg) (known : FirstSets) (mergeCores : Bool) (P : ItemSet → Prop) (collection : Collection) :
    Prop where
  size_eq : collection.keys.elements.size = collection.states.size
  key : ∀ (i : Nat) state, collection.states[i]? = some state →
    collection.keys.elements[i]? = some (Key.ofKernel mergeCores state.kernel)
  state : ∀ (i : Nat) state, collection.states[i]? = some state →
    state.items = cfg.closure known state.kernel ∧ P state.kernel
  enters : mergeCores = false → ∀ (i : Nat) state, collection.states[i]? = some state → ∀ symbol target,
    state.transitions.lookup symbol = some target → Enters cfg mergeCores collection.states state.items symbol target

/-- The state of a key is found by its number. -/
theorem Carries.exists_state (h : collection.Carries cfg known mergeCores P) {key : Key}
    (place : collection.keys.elements[target]? = some key) :
    ∃ state, collection.states[target]? = some state ∧ key = Key.ofKernel mergeCores state.kernel := by
  have bound : target < collection.states.size := h.size_eq ▸ (Array.getElem?_eq_some_iff.mp place).1
  have there := Array.getElem?_eq_getElem bound
  exact ⟨_, there, Option.some.inj (place.symm.trans (h.key target _ there))⟩

theorem Carries.push (h : collection.Carries cfg known mergeCores P) (hk : P kernel)
    (absent : collection.keys.number? (Key.ofKernel mergeCores kernel) = none) :
    (collection.push cfg known (Key.ofKernel mergeCores kernel) kernel).Carries cfg known mergeCores P := by
  obtain ⟨states, keys, queue⟩ := collection
  have keysPushed : (keys.insert (Key.ofKernel mergeCores kernel)).elements =
      keys.elements.push (Key.ofKernel mergeCores kernel) := by
    rw [Numbering.elements_insert, absent]
    rfl
  have size : keys.elements.size = states.size := h.size_eq
  have cases {i : Nat} {state : State} (hi : (states.push (stateOf cfg known kernel))[i]? = some state) :
      i = states.size ∧ state = stateOf cfg known kernel ∨ i ≠ states.size ∧ states[i]? = some state := by
    rw [Array.getElem?_push] at hi
    split at hi
    · rename_i last
      exact .inl ⟨last, (Option.some.inj hi).symm⟩
    · rename_i other
      exact .inr ⟨other, hi⟩
  constructor
  · change (keys.insert _).elements.size = (states.push _).size
    rw [keysPushed, Array.size_push, Array.size_push, size]
  · intro i state hi
    change (keys.insert _).elements[i]? = _
    rw [keysPushed, Array.getElem?_push, size]
    rcases cases hi with ⟨rfl, rfl⟩ | ⟨other, hi⟩
    · exact if_pos rfl
    · exact (if_neg other).trans (h.key i state hi)
  · intro i state hi
    rcases cases hi with ⟨-, rfl⟩ | ⟨-, hi⟩
    · exact ⟨rfl, hk⟩
    · exact h.state i state hi
  · intro separate i state hi symbol target ht
    rcases cases hi with ⟨-, rfl⟩ | ⟨-, hi⟩
    · cases ht
    · obtain ⟨entered, next, hm, hnext, same⟩ := h.enters separate i state hi symbol target ht
      exact ⟨entered, next, hm, getElem?_push_of_eq_some hnext, same⟩

theorem Carries.absorb (inherited : Inherited cfg known mergeCores P) (h : collection.Carries cfg known mergeCores P)
    (hk : P kernel) (ht : collection.states[target]? = some state)
    (keys : Key.ofKernel mergeCores kernel = Key.ofKernel mergeCores state.kernel) :
    (collection.absorb cfg known target kernel).Carries cfg known mergeCores P := by
  by_cases le : kernel.Le state.kernel
  · rwa [absorb_of_le ht le]
  obtain rfl := mergeCores_of_not_le keys le
  have cores := Key.has_iff_of_ofKernel_eq keys
  rw [absorb_of_not_le ht le]
  constructor
  · rw [Array.size_modify]
    exact h.size_eq
  · intro i new hi
    rw [getElem?_grown ht] at hi
    split at hi
    · rename_i same
      subst same
      cases hi
      -- the kernel that has grown has the same cores
      refine (h.key target state ht).trans (congrArg some (Key.ofKernel_eq_of_has fun core => ?_))
      exact ⟨fun hc => ItemSet.has_merge.mpr (.inl hc), State.has_grow fun core => (cores core).mp⟩
    · exact h.key i new hi
  · intro i new hi
    rw [getElem?_grown ht] at hi
    split at hi
    · cases hi
      exact ⟨rfl, inherited.merges rfl _ _ (h.state target state ht).2 hk cores le⟩
    · exact h.state i new hi
  · exact nofun

/-- Connecting changes neither kernels nor items. -/
theorem exists_of_getElem?_connect {symbol : Symbol} {new : State}
    (hi : (collection.connect source symbol target).states[i]? = some new) : ∃ old,
      collection.states[i]? = some old ∧ new.kernel = old.kernel ∧ new.items = old.items ∧
        (new.transitions = old.transitions ∨
          source = i ∧ new.transitions = setTransition symbol target old.transitions) := by
  rw [getElem?_connect] at hi
  split at hi
  · rename_i same
    obtain ⟨old, hold, rfl⟩ := Option.map_eq_some_iff.mp hi
    exact ⟨old, hold, rfl, rfl, .inr ⟨same, rfl⟩⟩
  · exact ⟨new, hi, rfl, rfl, .inl rfl⟩

theorem exists_getElem?_connect (source : Nat) (symbol : Symbol) (target : Nat)
    (hi : collection.states[i]? = some state) : ∃ new,
      (collection.connect source symbol target).states[i]? = some new ∧ new.kernel = state.kernel ∧
        new.items = state.items := by
  rw [getElem?_connect, hi]
  split
  · exact ⟨_, rfl, rfl, rfl⟩
  · exact ⟨state, rfl, rfl, rfl⟩

theorem Carries.connect {symbol : Symbol} (h : collection.Carries cfg known mergeCores P)
    (enters : mergeCores = false → ∀ state, collection.states[source]? = some state →
      Enters cfg mergeCores collection.states state.items symbol target) :
    (collection.connect source symbol target).Carries cfg known mergeCores P := by
  have connected {items : ItemSet} {other : Symbol} {j : Nat}
      (entered : Enters cfg mergeCores collection.states items other j) :
      Enters cfg mergeCores (collection.connect source symbol target).states items other j := by
    obtain ⟨kernel, next, hm, hnext, same⟩ := entered
    obtain ⟨new, hnew, kernel_eq, -⟩ := exists_getElem?_connect source symbol target hnext
    exact ⟨kernel, new, hm, hnew, kernel_eq ▸ same⟩
  refine ⟨h.size_eq.trans Array.size_modify.symm, fun i new hi => ?_, fun i new hi => ?_,
    fun separate i new hi other j leads => ?_⟩
  · obtain ⟨old, hold, kernel, -⟩ := exists_of_getElem?_connect hi
    rw [kernel]
    exact h.key i old hold
  · obtain ⟨old, hold, kernel, items, -⟩ := exists_of_getElem?_connect hi
    rw [kernel, items]
    exact h.state i old hold
  · obtain ⟨old, hold, -, items, transitions⟩ := exists_of_getElem?_connect hi
    rw [items]
    rcases transitions with transitions | ⟨rfl, transitions⟩
    · exact connected (h.enters separate i old hold other j (transitions ▸ leads))
    · rw [transitions, setTransition_eq_alter, lookup_alter] at leads
      split at leads
      · rename_i same
        subst same
        cases leads
        exact connected (enters separate old hold)
      · exact connected (h.enters separate source old hold other j leads)

theorem keys_absorb (ht : collection.states[target]? = some state) :
    (collection.absorb cfg known target kernel).keys = collection.keys := by
  by_cases le : kernel.Le state.kernel
  · rw [absorb_of_le ht le]
  · rw [absorb_of_not_le ht le]

/-- A followed transition is connected to the state of its key, in a collection that keeps its states where cores are
not merged. -/
theorem Carries.exists_connect (inherited : Inherited cfg known mergeCores P)
    (h : collection.Carries cfg known mergeCores P) (source : Nat) (symbol : Symbol) (hk : P kernel) :
    ∃ (middle : Collection) (target : Nat),
      collection.follow cfg known mergeCores source (symbol, kernel) = middle.connect source symbol target ∧
      middle.Carries cfg known mergeCores P ∧
      middle.keys.elements[target]? = some (Key.ofKernel mergeCores kernel) ∧
      (mergeCores = false → ∀ (i : Nat) state,
        collection.states[i]? = some state → middle.states[i]? = some state) := by
  rw [Collection.follow]
  simp only
  cases found : collection.keys.number? (Key.ofKernel mergeCores kernel) with
  | some target =>
    have place := collection.keys.number?_eq_some_iff.mp found
    obtain ⟨state, ht, keys⟩ := h.exists_state place
    refine ⟨_, target, rfl, h.absorb inherited hk ht keys, keys_absorb ht ▸ place, fun separate i other hi => ?_⟩
    subst separate
    have le : kernel.Le state.kernel := by
      by_contra apart
      cases mergeCores_of_not_le keys apart
    rwa [absorb_of_le ht le]
  | none =>
    refine ⟨_, _, rfl, h.push hk found, ?_, fun _ i other hi => getElem?_push_of_eq_some hi⟩
    obtain ⟨states, keys, queue⟩ := collection
    have size : keys.elements.size = states.size := h.size_eq
    change (keys.insert _).elements[states.size]? = _
    rw [Numbering.elements_insert, found, ← size]
    exact Array.getElem?_push_size

/-- **A step**: a transition is followed to a kernel with the property. -/
theorem Carries.follow (inherited : Inherited cfg known mergeCores P) (h : collection.Carries cfg known mergeCores P)
    {transition : Symbol × ItemSet} (hk : P transition.2)
    (offered : mergeCores = false → ∃ state, collection.states[source]? = some state ∧
      transition ∈ cfg.transitions state.items) :
    (collection.follow cfg known mergeCores source transition).Carries cfg known mergeCores P ∧
      (mergeCores = false → ∀ state, collection.states[source]? = some state → ∃ new,
        (collection.follow cfg known mergeCores source transition).states[source]? = some new ∧
          new.items = state.items) := by
  obtain ⟨symbol, kernel⟩ := transition
  obtain ⟨middle, target, followed, carries, place, keeps⟩ := h.exists_connect inherited source symbol hk
  rw [followed]
  refine ⟨carries.connect fun separate state hs => ?_, fun separate state hs => ?_⟩
  · obtain ⟨old, hold, hm⟩ := offered separate
    cases (keeps separate source old hold).symm.trans hs
    obtain ⟨next, hnext, same⟩ := carries.exists_state place
    exact ⟨kernel, next, hm, hnext, same.symm⟩
  · obtain ⟨new, hnew, -, items⟩ := exists_getElem?_connect source symbol target (keeps separate source state hs)
    exact ⟨new, hnew, items⟩

theorem Carries.followAll (inherited : Inherited cfg known mergeCores P) (h : collection.Carries cfg known mergeCores P)
    {transitions : List (Symbol × ItemSet)} (hk : ∀ transition ∈ transitions, P transition.2)
    (offered : mergeCores = false → ∃ state, collection.states[source]? = some state ∧
      ∀ transition ∈ transitions, transition ∈ cfg.transitions state.items) :
    (transitions.foldl (Collection.follow cfg known mergeCores source) collection).Carries cfg known mergeCores P := by
  induction transitions generalizing collection with
  | nil => exact h
  | cons transition transitions ih =>
    obtain ⟨followed, keeps⟩ := h.follow inherited (hk transition List.mem_cons_self) fun separate =>
      (offered separate).imp fun _ ⟨hs, hm⟩ => ⟨hs, hm _ List.mem_cons_self⟩
    refine ih followed (fun other ho => hk other (List.mem_cons_of_mem _ ho)) fun separate => ?_
    obtain ⟨state, hs, hm⟩ := offered separate
    obtain ⟨new, hnew, items⟩ := keeps separate state hs
    exact ⟨new, hnew, fun other ho => items ▸ hm other (List.mem_cons_of_mem _ ho)⟩

/-- A source that is no state has no transitions. -/
theorem transitions_getD_eq_nil (hs : collection.states[source]? = none) :
    cfg.transitions (collection.states.getD source default).items = [] := by
  rw [Array.getD_eq_getD_getElem?, hs]
  rfl

/-- Some of the transitions of a state that has left the queue are followed, the first ones in front. -/
theorem Carries.followFront (inherited : Inherited cfg known mergeCores P)
    (h : collection.Carries cfg known mergeCores P) (queue : List Nat) {front back : List (Symbol × ItemSet)}
    (transitions : cfg.transitions (collection.states.getD source default).items = front ++ back) :
    Carries cfg known mergeCores P
      (front.foldl (Collection.follow cfg known mergeCores source) { collection with queue }) := by
  have popped : Carries cfg known mergeCores P { collection with queue } := ⟨h.size_eq, h.key, h.state, h.enters⟩
  cases hs : collection.states[source]? with
  | none =>
    rw [transitions_getD_eq_nil hs] at transitions
    rw [(List.append_eq_nil_iff.mp transitions.symm).1]
    exact popped
  | some state =>
    obtain ⟨closed, holds⟩ := h.state source state hs
    rw [Array.getD_eq_getD_getElem?, hs, Option.getD_some] at transitions
    have mem : ∀ transition ∈ front, transition ∈ cfg.transitions state.items := fun transition ht =>
      transitions ▸ List.mem_append_left back ht
    refine popped.followAll inherited (fun transition ht => ?_) fun _ => ⟨state, hs, mem⟩
    exact inherited.leads _ holds transition (closed ▸ mem transition ht)

theorem Carries.grow (inherited : Inherited cfg known mergeCores P) {visits : Nat}
    (h : collection.Carries cfg known mergeCores P) :
    (collection.grow cfg known mergeCores visits).Carries cfg known mergeCores P := by
  induction visits generalizing collection with
  | zero => exact h
  | succ visits ih =>
    obtain ⟨states, keys, queue⟩ := collection
    cases queue with
    | nil => exact h
    | cons source queue => exact ih (h.followFront inherited queue (List.append_nil _).symm)

end Collection

namespace Cfg
variable {cfg : Cfg} {mergeCores : Bool} {P : ItemSet → Prop} {state : State} {kernel : ItemSet}

theorem carries_firstCollection (first : P cfg.startKernel) :
    (cfg.firstCollection mergeCores).Carries cfg cfg.firstSets mergeCores P := by
  refine ⟨congrArg Array.size elements_keys_firstCollection, fun i state hi => ?_, fun i state hi => ?_,
    fun _ i state hi symbol target ht => ?_⟩
  · obtain ⟨rfl, rfl⟩ := eq_of_getElem?_firstCollection hi
    rw [elements_keys_firstCollection]
    rfl
  · obtain ⟨-, rfl⟩ := eq_of_getElem?_firstCollection hi
    exact ⟨rfl, first⟩
  · obtain ⟨-, rfl⟩ := eq_of_getElem?_firstCollection hi
    cases ht

/-- **What all kernels inherit holds of all states**, and the collection carries it. -/
theorem exists_carries (mergeCores : Bool) (inherited : Collection.Inherited cfg cfg.firstSets mergeCores P)
    (first : P cfg.startKernel) : ∃ collection : Collection,
      collection.Carries cfg cfg.firstSets mergeCores P ∧
      ∀ i : Nat, (cfg.collection mergeCores)[i]? = collection.states[i]? :=
  ⟨_, (carries_firstCollection first).grow inherited, fun _ => Array.getElem?_toList⟩

/-! ## Words of kernels -/

/-- Whether a kernel has the cores of a word, and allows nothing that is not valid for such a word. -/
structure Explained (cfg : Cfg) (kernel : ItemSet) : Prop where
  fits : kernel.Fits cfg
  spelled : ∃ word, cfg.Spells word kernel
  allows : ∀ core t, kernel.Allows core t → ∃ word, cfg.Spells word kernel ∧ cfg.KernelItem word core t

/-- What closing an explained kernel allows is valid for a word with its cores. -/
theorem Explained.exists_valid (h : cfg.Explained kernel) {core : Core} {t : Nat}
    (granted : cfg.Granted cfg.firstSets kernel core t) :
    ∃ word, cfg.Spells word kernel ∧ cfg.Valid word core t := by
  induction granted with
  | kernel allows =>
    obtain ⟨word, spells, item⟩ := h.allows _ _ allows
    exact ⟨word, spells, item.valid⟩
  | first reached next hp ht =>
    obtain ⟨word, spells⟩ := h.spelled
    exact ⟨word, spells, .first (spells.reached_iff.mp reached) next hp ht⟩
  | pass _ next hp nullable ih =>
    obtain ⟨word, spells, valid⟩ := ih
    exact ⟨word, spells, .pass valid next hp nullable⟩

/-- A kernel that a symbol leads to has the cores of the longer word. -/
theorem Spells.cons {word : List Symbol} {symbol : Symbol} {next set : ItemSet}
    (isKernel : cfg.IsKernel symbol set.items next) (spells : cfg.Spells word kernel)
    (closure : cfg.IsClosure cfg.firstSets kernel set) : cfg.Spells (symbol :: word) next := by
  intro core
  rw [isKernel.has_iff, KernelCore]
  constructor
  · rintro ⟨item, hm, hsymbol, advance⟩
    have reached := closure.reached _ (set.has_iff.mpr ⟨item, hm, rfl⟩)
    exact ⟨item.core, spells.reached_iff.mp reached, hsymbol, advance⟩
  · rintro ⟨old, viable, hsymbol, advance⟩
    obtain ⟨item, hm, rfl⟩ := set.has_iff.mp (closure.has_iff.mpr (spells.reached_iff.mpr viable))
    exact ⟨item, hm, hsymbol, advance⟩

theorem inherited_fits (wf : cfg.WellFormed) (mergeCores : Bool) :
    Collection.Inherited cfg cfg.firstSets mergeCores (·.Fits cfg) where
  leads _ fits _ ht :=
    (isKernel_of_mem_transitions (isClosure_closure wf (fits_firstSets wf) fits).fits ht).fits
  merges _ _ _ fits fits' _ _ := ItemSet.fits_merge fits fits'

theorem inherited_explained (wf : cfg.WellFormed) (mergeCores : Bool) :
    Collection.Inherited cfg cfg.firstSets mergeCores cfg.Explained := by
  constructor
  · intro kernel h transition ht
    obtain ⟨symbol, next⟩ := transition
    have closure := isClosure_closure wf (fits_firstSets wf) h.fits
    have isKernel := isKernel_of_mem_transitions closure.fits ht
    refine ⟨isKernel.fits, ?_, ?_⟩
    · obtain ⟨word, spells⟩ := h.spelled
      exact ⟨symbol :: word, spells.cons isKernel closure⟩
    · intro core t allows
      obtain ⟨item, hm, hsymbol, advance, contains⟩ := (isKernel.allows_iff core t).mp allows
      have granted := (allows_closure_iff wf (fits_firstSets wf) h.fits).mp (ItemSet.allows_of_mem _ hm contains)
      obtain ⟨word, spells, valid⟩ := h.exists_valid granted
      exact ⟨symbol :: word, spells.cons isKernel closure, item.core, valid, hsymbol, advance⟩
  · intro _ a b ha hb cores _
    have same (core : Core) : (a.merge b.items).Has core ↔ a.Has core := by
      rw [ItemSet.has_merge, ← b.has_iff, cores, or_self]
    refine ⟨ItemSet.fits_merge ha.fits hb.fits, ?_, fun core t allows => ?_⟩
    · obtain ⟨word, spells⟩ := ha.spelled
      exact ⟨word, spells.congr same⟩
    · rcases ItemSet.allows_merge.mp allows with allows | allows
      · obtain ⟨word, spells, item⟩ := ha.allows core t allows
        exact ⟨word, spells.congr same, item⟩
      · obtain ⟨word, spells, item⟩ := hb.allows core t allows
        exact ⟨word, spells.congr fun core => (same core).trans (cores core).symm, item⟩

theorem explained_startKernel (wf : cfg.WellFormed) : cfg.Explained cfg.startKernel := by
  have spells : cfg.Spells [] cfg.startKernel := fun core => has_startKernel
  refine ⟨fits_startKernel wf, ⟨[], spells⟩, fun core t allows => ⟨[], spells, ?_⟩⟩
  rcases (ItemSet.allows_insert _).mp allows with allows | ⟨rfl, ht⟩
  · exact absurd allows ItemSet.not_allows_empty
  · rcases TerminalSet.contains_insert.mp ht with ht | rfl
    · rw [TerminalSet.contains_ofSize] at ht
      cases ht
    · exact ⟨rfl, rfl⟩

/-- **Every state of a collection is explained by words**, whether cores are merged or not. -/
theorem exists_carries_explained (wf : cfg.WellFormed) (mergeCores : Bool) : ∃ collection : Collection,
    collection.Carries cfg cfg.firstSets mergeCores cfg.Explained ∧
      ∀ i : Nat, (cfg.collection mergeCores)[i]? = collection.states[i]? :=
  exists_carries mergeCores (inherited_explained wf mergeCores) (explained_startKernel wf)

theorem explained_collection (wf : cfg.WellFormed) {i : Nat} (hs : (cfg.collection mergeCores)[i]? = some state) :
    cfg.Explained state.kernel := by
  obtain ⟨collection, carries, states⟩ := exists_carries_explained wf mergeCores
  exact (carries.state i state (states i ▸ hs)).2

/-- The items of a state are the closure of its kernel. -/
theorem items_collection (wf : cfg.WellFormed) {i : Nat} (hs : (cfg.collection mergeCores)[i]? = some state) :
    state.items = cfg.closure cfg.firstSets state.kernel := by
  obtain ⟨collection, carries, states⟩ := exists_carries_explained wf mergeCores
  exact (carries.state i state (states i ▸ hs)).1

/-- What a state allows is valid for some word with the cores of the state. -/
theorem exists_valid_of_allows (wf : cfg.WellFormed) {i : Nat} (hs : (cfg.collection mergeCores)[i]? = some state)
    {core : Core} {t : Nat} (allows : state.items.Allows core t) :
    ∃ word, cfg.Spells word state.kernel ∧ cfg.Valid word core t := by
  have explained := explained_collection wf hs
  rw [items_collection wf hs] at allows
  exact explained.exists_valid ((allows_closure_iff wf (fits_firstSets wf) explained.fits).mp allows)

/-- States with the same key are the same. -/
theorem eq_of_ofKernel_eq (wf : cfg.WellFormed) {i j : Nat} {a b : State}
    (ha : (cfg.collection mergeCores)[i]? = some a) (hb : (cfg.collection mergeCores)[j]? = some b)
    (same : Key.ofKernel mergeCores a.kernel = Key.ofKernel mergeCores b.kernel) : i = j := by
  obtain ⟨collection, carries, states⟩ := exists_carries_explained wf mergeCores
  have place := carries.key i a (states i ▸ ha)
  rw [same] at place
  exact Numbering.elements_inj _ place (carries.key j b (states j ▸ hb))

/-- Merged states with the same cores are one. -/
theorem eq_of_has_iff (wf : cfg.WellFormed) {i j : Nat} {a b : State} (ha : (cfg.collection true)[i]? = some a)
    (hb : (cfg.collection true)[j]? = some b) (same : ∀ core, a.kernel.Has core ↔ b.kernel.Has core) : i = j :=
  eq_of_ofKernel_eq wf ha hb (Key.ofKernel_eq_of_has same)

/-- Kernels of one word have the same cores. -/
theorem Spells.has_iff {word : List Symbol} {a b : ItemSet} (ha : cfg.Spells word a) (hb : cfg.Spells word b)
    (core : Core) : b.Has core ↔ a.Has core := (hb core).trans (ha core).symm

/-- **A transition of the canonical collection enters the kernel that it brings**, item by item. -/
theorem exists_isKernel (wf : cfg.WellFormed) {i target : Nat} {symbol : Symbol}
    (hs : (cfg.collection false)[i]? = some state) (leads : state.transitions.lookup symbol = some target) :
    ∃ next kernel, (cfg.collection false)[target]? = some next ∧ cfg.IsKernel symbol state.items.items kernel ∧
      ∀ core t, next.kernel.Allows core t ↔ kernel.Allows core t := by
  obtain ⟨collection, carries, states⟩ := exists_carries_explained wf false
  obtain ⟨kernel, next, hm, hnext, same⟩ := carries.enters rfl i state (states i ▸ hs) symbol target leads
  have fits := ((isAutomaton_collection wf false).sound i state hs).isClosure.fits
  refine ⟨next, kernel, (states target).trans hnext, isKernel_of_mem_transitions fits hm, fun core t => ?_⟩
  exact exists_congr fun item => and_congr_left fun _ => Key.mem_items_iff_of_ofKernel_eq same item

end Cfg
end TableParsing
