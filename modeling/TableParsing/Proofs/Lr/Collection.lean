import TableParsing.Proofs.Lr.Keys

/-! # The collection is an automaton

A finished collection is an automaton (`Cfg.IsAutomaton`): every state is the closure of its kernel, the kernel
of a state has no cores but those that the transitions to it bring, and every item with a symbol behind the dot
**leads on** to a state that covers the item with the dot moved on.

The invariant is made of what always holds (`Collection.Built`) and of what holds of the states that are not in
the queue (`Collection.Settled`).  Kernels only gain lookaheads, never cores; so what a state leads to stays
covered, and a state whose closure changes is in the queue again (`Collection.Evolves`).

**Progress** counts the states and what their kernels say.  Whatever enters the queue has made progress, and
there is no more of it than visits, so the queue runs empty. -/

namespace TableParsing

open Collection (Key State)

/-! ## Merging kernels -/

namespace ItemSet
variable {cfg : Cfg} {set kernel : ItemSet} {core : Core} {t : Nat}

/-- The set with some items inserted. -/
def merge (set : ItemSet) (items : List Item) : ItemSet :=
  items.foldl (fun set item => set.insert item.core item.lookahead) set

theorem has_merge {items : List Item} :
    (set.merge items).Has core ↔ set.Has core ∨ ∃ item ∈ items, item.core = core := by
  induction items generalizing set with
  | nil => simp [merge]
  | cons item items ih =>
    have step : set.merge (item :: items) = (set.insert item.core item.lookahead).merge items := rfl
    rw [step, ih, has_insert, or_assoc, List.exists_mem_cons_iff, eq_comm]

theorem allows_merge {items : List Item} : (set.merge items).Allows core t ↔
    set.Allows core t ∨ ∃ item ∈ items, item.core = core ∧ item.lookahead.contains t := by
  induction items generalizing set with
  | nil => simp [merge]
  | cons item items ih =>
    have step : set.merge (item :: items) = (set.insert item.core item.lookahead).merge items := rfl
    rw [step, ih, allows_insert, or_assoc, List.exists_mem_cons_iff, eq_comm]

theorem fits_merge {items : List Item} (fits : set.Fits cfg)
    (h : ∀ item ∈ items, cfg.IsCore item.core ∧ item.lookahead.Fits cfg.terminalCount) :
    (set.merge items).Fits cfg := by
  induction items generalizing set with
  | nil => exact fits
  | cons item items ih =>
    obtain ⟨hc, hl⟩ := h item List.mem_cons_self
    exact ih (fits.insert hc hl) fun other ho => h other (List.mem_cons_of_mem _ ho)

theorem le_merge (set : ItemSet) (items : List Item) : set.Le (set.merge items) :=
  ⟨fun _ h => has_merge.mpr (.inl h), fun _ _ h => allows_merge.mpr (.inl h)⟩

theorem items_le_merge (set kernel : ItemSet) : kernel.Le (set.merge kernel.items) :=
  ⟨fun _ h => has_merge.mpr (.inr (kernel.has_iff.mp h)), fun _ _ h => allows_merge.mpr (.inr h)⟩

/-- Covering all items is having all that they say. -/
theorem le_of_covers (h : ∀ item ∈ kernel.items, set.covers item.core item.lookahead) : kernel.Le set := by
  constructor
  · intro core hc
    obtain ⟨item, hm, rfl⟩ := kernel.has_iff.mp hc
    exact (set.covers_iff.mp (h item hm)).1
  · rintro core t ⟨item, hm, rfl, ht⟩
    exact (set.covers_iff.mp (h item hm)).2 t ht

theorem covers_of_le (h : kernel.Le set) {item : Item} (hm : item ∈ kernel.items) :
    set.covers item.core item.lookahead :=
  set.covers_iff.mpr ⟨h.has _ (kernel.has_iff.mpr ⟨item, hm, rfl⟩),
    fun t ht => h.allows _ t (kernel.allows_of_mem hm ht)⟩

end ItemSet

/-- What a state is on its own. -/
structure Collection.State.Sound (cfg : Cfg) (known : FirstSets) (state : Collection.State) : Prop where
  fits : state.kernel.Fits cfg
  isClosure : cfg.IsClosure known state.kernel state.items
  nodup : (state.transitions.map Prod.fst).Nodup

namespace Collection
variable {cfg : Cfg} {known : FirstSets} {mergeCores : Bool} {collection before after : Collection}
  {state : State} {symbol : Symbol} {kernel : ItemSet} {i j source target : Nat}

/-- Whether a state leads on behind a symbol to one whose kernel has only cores that items of the state move
on to. -/
def Advances (cfg : Cfg) (states : Array State) (state : State) (symbol : Symbol) (target : Nat) : Prop :=
  ∃ next, states[target]? = some next ∧ ∀ core, next.kernel.Has core →
    ∃ old, state.items.Has old ∧ cfg.nextSymbol? old = some symbol ∧ old.advance = core

/-- Whether a state leads on behind a symbol to one whose kernel is `enough`. -/
def Leads (states : Array State) (state : State) (symbol : Symbol) (enough : ItemSet → Prop) : Prop :=
  ∃ target next, state.transitions.lookup symbol = some target ∧ states[target]? = some next ∧
    enough next.kernel

/-- Whether a kernel is led to by a symbol: all its cores have moved on behind it. -/
structure IsMoved (cfg : Cfg) (symbol : Symbol) (kernel : ItemSet) : Prop where
  nonempty : ∃ core, kernel.Has core
  moved : ∀ core, kernel.Has core → ∃ old, cfg.nextSymbol? old = some symbol ∧ old.advance = core

theorem IsMoved.congr {other : ItemSet} (h : IsMoved cfg symbol kernel)
    (same : ∀ core, other.Has core ↔ kernel.Has core) : IsMoved cfg symbol other where
  nonempty := h.nonempty.imp fun core => (same core).mpr
  moved core hc := h.moved core ((same core).mp hc)

/-- What holds of every collection. -/
structure Built (cfg : Cfg) (known : FirstSets) (mergeCores : Bool) (collection : Collection) : Prop where
  size_eq : collection.keys.elements.size = collection.states.size
  key : ∀ (i : Nat) state, collection.states[i]? = some state →
    collection.keys.elements[i]? = some (Key.ofKernel mergeCores state.kernel)
  sound : ∀ (i : Nat) state, collection.states[i]? = some state → state.Sound cfg known
  advances : ∀ (i : Nat) state, collection.states[i]? = some state → ∀ symbol target,
    state.transitions.lookup symbol = some target → Advances cfg collection.states state symbol target
  moved : ∀ (i : Nat) state, collection.states[i]? = some state →
    i = 0 ∨ ∃ symbol, IsMoved cfg symbol state.kernel

/-- What holds of a state of the collection, at its place. -/
structure Placed (cfg : Cfg) (known : FirstSets) (mergeCores : Bool) (collection : Collection) (i : Nat)
    (state : State) : Prop where
  key : collection.keys.elements[i]? = some (Key.ofKernel mergeCores state.kernel)
  sound : state.Sound cfg known
  advances : ∀ symbol target, state.transitions.lookup symbol = some target →
    Advances cfg collection.states state symbol target
  moved : i = 0 ∨ ∃ symbol, IsMoved cfg symbol state.kernel

theorem Built.placed (built : collection.Built cfg known mergeCores)
    (hi : collection.states[i]? = some state) : collection.Placed cfg known mergeCores i state :=
  ⟨built.key i state hi, built.sound i state hi, built.advances i state hi, built.moved i state hi⟩

theorem built_of_placed (size_eq : collection.keys.elements.size = collection.states.size)
    (placed : ∀ (i : Nat) state, collection.states[i]? = some state →
      collection.Placed cfg known mergeCores i state) : collection.Built cfg known mergeCores where
  size_eq := size_eq
  key i state hi := (placed i state hi).key
  sound i state hi := (placed i state hi).sound
  advances i state hi := (placed i state hi).advances
  moved i state hi := (placed i state hi).moved

/-- Whether every item of a state leads on. -/
def IsLed (cfg : Cfg) (states : Array State) (state : State) : Prop :=
  ∀ item ∈ state.items.items, ∀ symbol, cfg.nextSymbol? item.core = some symbol →
    Leads states state symbol fun kernel => kernel.covers item.core.advance item.lookahead

/-- Whether all states are led, in the queue, or the one that `exempt` speaks of. -/
def Settled (cfg : Cfg) (exempt : Nat → Prop) (collection : Collection) : Prop :=
  ∀ (i : Nat) state, collection.states[i]? = some state →
    i ∈ collection.queue ∨ exempt i ∨ IsLed cfg collection.states state

/-- The number of states and of what their kernels say. -/
noncomputable def progress (cfg : Cfg) (collection : Collection) : Nat :=
  (collection.states.toList.map fun state =>
    countHolding cfg.kernelFacts state.kernel.Holds + 1).sum

/-! ## Evolution -/

/-- How one state becomes another: it keeps its cores, and the symbols that `changed` does not speak of lead
where they led. -/
structure State.Becomes (changed : Symbol → Prop) (old new : State) : Prop where
  kernel_le : old.kernel.Le new.kernel
  has : ∀ core, new.kernel.Has core → old.kernel.Has core
  transitions : ∀ symbol, ¬changed symbol →
    new.transitions.lookup symbol = old.transitions.lookup symbol

/-- **How a collection becomes another.**  Its states stay.  A state with other items, or a new one, is in
the queue, and what enters the queue has made progress. -/
structure Evolves (cfg : Cfg) (changed : Nat → Symbol → Prop) (before after : Collection) : Prop where
  queue : ∀ i ∈ before.queue, i ∈ after.queue
  state : ∀ (i : Nat) old, before.states[i]? = some old →
    ∃ new, after.states[i]? = some new ∧ old.Becomes (changed i) new
  items : ∀ (i : Nat) new, after.states[i]? = some new →
    i ∈ after.queue ∨ ∃ old, before.states[i]? = some old ∧ new.items = old.items
  progress : after.queue.length + progress cfg before ≤ before.queue.length + progress cfg after

section Evolution
variable {changed changed' : Nat → Symbol → Prop} {old new third : State}

theorem State.Becomes.refl {changed : Symbol → Prop} (state : State) : state.Becomes changed state :=
  ⟨.refl _, fun _ => id, fun _ _ => rfl⟩

theorem State.Becomes.trans {changed : Symbol → Prop} (h : old.Becomes changed new)
    (h' : new.Becomes changed third) : old.Becomes changed third where
  kernel_le := h.kernel_le.trans h'.kernel_le
  has core hc := h.has core (h'.has core hc)
  transitions symbol hs := (h'.transitions symbol hs).trans (h.transitions symbol hs)

theorem State.Becomes.mono {changed changed' : Symbol → Prop} (sub : ∀ symbol, changed symbol → changed' symbol)
    (h : old.Becomes changed new) : old.Becomes changed' new :=
  { h with transitions := fun symbol hs => h.transitions symbol fun hc => hs (sub symbol hc) }

/-- With the cores of its kernel a state keeps all its cores. -/
theorem State.Becomes.items_has_iff {changed : Symbol → Prop} (h : old.Becomes changed new)
    (sound : old.Sound cfg known) (sound' : new.Sound cfg known) (core : Core) :
    new.items.Has core ↔ old.items.Has core := by
  rw [sound.isClosure.has_iff, sound'.isClosure.has_iff]
  exact ⟨Cfg.Reached.mono h.has, Cfg.Reached.mono h.kernel_le.has⟩

theorem Evolves.refl (cfg : Cfg) (changed : Nat → Symbol → Prop) (collection : Collection) :
    Evolves cfg changed collection collection where
  queue _ h := h
  state _ old h := ⟨old, h, .refl old⟩
  items _ new h := .inr ⟨new, h, rfl⟩
  progress := Nat.le_refl _

theorem Evolves.trans {third : Collection} (h : Evolves cfg changed before after)
    (h' : Evolves cfg changed after third) : Evolves cfg changed before third where
  queue i hi := h'.queue i (h.queue i hi)
  state i old hi := by
    obtain ⟨new, hnew, becomes⟩ := h.state i old hi
    obtain ⟨last, hlast, becomes'⟩ := h'.state i new hnew
    exact ⟨last, hlast, becomes.trans becomes'⟩
  items i last hi := by
    rcases h'.items i last hi with queued | ⟨new, hnew, same⟩
    · exact .inl queued
    · rcases h.items i new hnew with queued | ⟨old, hold, same'⟩
      · exact .inl (h'.queue i queued)
      · exact .inr ⟨old, hold, same.trans same'⟩
  progress := by
    have := h.progress
    have := h'.progress
    omega

theorem Evolves.mono (sub : ∀ i symbol, changed i symbol → changed' i symbol)
    (h : Evolves cfg changed before after) : Evolves cfg changed' before after :=
  { h with
    state := fun i old hi =>
      let ⟨new, hnew, becomes⟩ := h.state i old hi
      ⟨new, hnew, becomes.mono (sub i)⟩ }

theorem Advances.evolve (h : Evolves cfg changed before after) (sound : old.Sound cfg known)
    (sound' : new.Sound cfg known) (becomes : old.Becomes (changed i) new)
    (advances : Advances cfg before.states old symbol target) :
    Advances cfg after.states new symbol target := by
  obtain ⟨next, hnext, cores⟩ := advances
  obtain ⟨next', hnext', grown⟩ := h.state target next hnext
  refine ⟨next', hnext', ?_⟩
  intro core hc
  obtain ⟨core', hc', hadvance⟩ := cores core (grown.has core hc)
  exact ⟨core', (becomes.items_has_iff sound sound' core').mpr hc', hadvance⟩

theorem Leads.evolve (h : Evolves cfg changed before after) (becomes : old.Becomes (changed i) new)
    (unchanged : ¬changed i symbol) {enough : ItemSet → Prop}
    (mono : ∀ a b : ItemSet, a.Le b → enough a → enough b) (leads : Leads before.states old symbol enough) :
    Leads after.states new symbol enough := by
  obtain ⟨target, next, htarget, hnext, he⟩ := leads
  obtain ⟨next', hnext', grown⟩ := h.state target next hnext
  exact ⟨target, next', (becomes.transitions symbol unchanged).trans htarget, hnext',
    mono _ _ grown.kernel_le he⟩

/-- A state that is as it was, and where it was, has its place in what the collection has become. -/
theorem Placed.evolve (h : Evolves cfg changed before after)
    (key : after.keys.elements[i]? = before.keys.elements[i]?)
    (placed : before.Placed cfg known mergeCores i state) : after.Placed cfg known mergeCores i state where
  key := key.trans placed.key
  sound := placed.sound
  advances symbol target ht :=
    (placed.advances symbol target ht).evolve (i := i) h placed.sound placed.sound (.refl state)
  moved := placed.moved

/-- What is settled stays settled where transitions stay. -/
theorem Settled.evolve {exempt : Nat → Prop} (h : Evolves cfg changed before after)
    (sub : ∀ i symbol, changed i symbol → exempt i) (settled : Settled cfg exempt before) :
    Settled cfg exempt after := by
  intro i new hnew
  rcases h.items i new hnew with queued | ⟨old, hold, same⟩
  · exact .inl queued
  -- its items are the old ones, so what led them on does so still
  · by_cases he : exempt i
    · exact .inr (.inl he)
    · rcases settled i old hold with queued | exempted | led
      · exact .inl (h.queue i queued)
      · exact absurd exempted he
      · obtain ⟨new', hnew', becomes⟩ := h.state i old hold
        cases hnew.symm.trans hnew'
        refine .inr (.inr fun item hm symbol next => ?_)
        rw [same] at hm
        exact (led item hm symbol next).evolve h becomes (fun hc => he (sub i symbol hc))
          fun _ _ hle hc => hle.covers hc

end Evolution

/-! ## Steps -/

/-- What a state has to do with the kernel that led to it. -/
structure State.Matches (kernel : ItemSet) (state : State) : Prop where
  kernel_le : kernel.Le state.kernel
  has : ∀ core, state.kernel.Has core → kernel.Has core

theorem State.sound_stateOf (wf : cfg.WellFormed) (fitsKnown : known.Fits cfg) (fits : kernel.Fits cfg) :
    (stateOf cfg known kernel).Sound cfg known :=
  ⟨fits, Cfg.isClosure_closure wf fitsKnown fits, List.nodup_nil⟩

theorem getElem?_push_of_eq_some {states : Array State} {new : State} (h : states[i]? = some state) :
    (states.push new)[i]? = some state := by
  rw [Array.getElem?_push, if_neg, h]
  exact Nat.ne_of_lt (Array.getElem?_eq_some_iff.mp h).1

theorem evolves_push (changed : Nat → Symbol → Prop) (key : Key) (kernel : ItemSet) :
    Evolves cfg changed collection (collection.push cfg known key kernel) := by
  -- the new state is queued, and counts as progress
  obtain ⟨states, keys, queue⟩ := collection
  refine ⟨fun i hi => List.mem_append_left _ hi, ?_, ?_, ?_⟩
  · intro i old hi
    exact ⟨old, getElem?_push_of_eq_some hi, .refl old⟩
  · intro i new hi
    change (states.push _)[i]? = _ at hi
    rw [Array.getElem?_push] at hi
    split at hi
    · rename_i last
      exact .inl (List.mem_append_right _ (last ▸ List.mem_singleton_self _))
    · exact .inr ⟨new, hi, rfl⟩
  · change (queue ++ [states.size]).length + _ ≤ queue.length + progress cfg ⟨states.push _, _, _⟩
    simp only [progress, Array.toList_push, List.map_append, List.sum_append, List.length_append,
      List.map_singleton, List.sum_singleton, List.length_singleton]
    omega

theorem Built.push (wf : cfg.WellFormed) (fitsKnown : known.Fits cfg) (fits : kernel.Fits cfg)
    (built : collection.Built cfg known mergeCores) (moved : IsMoved cfg symbol kernel)
    (absent : collection.keys.number? (Key.ofKernel mergeCores kernel) = none) :
    (collection.push cfg known (Key.ofKernel mergeCores kernel) kernel).Built cfg known mergeCores := by
  have evolves : Evolves cfg (fun _ _ => False) collection
      (collection.push cfg known (Key.ofKernel mergeCores kernel) kernel) := evolves_push _ _ _
  obtain ⟨states, keys, queue⟩ := collection
  have keysPushed : (keys.insert (Key.ofKernel mergeCores kernel)).elements =
      keys.elements.push (Key.ofKernel mergeCores kernel) := by
    rw [Numbering.elements_insert, absent]
    rfl
  have size : keys.elements.size = states.size := built.size_eq
  have cases {i : Nat} {state : State} (hi : (states.push (stateOf cfg known kernel))[i]? = some state) :
      i = states.size ∧ state = stateOf cfg known kernel ∨ states[i]? = some state := by
    rw [Array.getElem?_push] at hi
    split at hi
    · rename_i last
      exact .inl ⟨last, (Option.some.inj hi).symm⟩
    · exact .inr hi
  refine built_of_placed ?_ ?_
  · change (keys.insert _).elements.size = (states.push _).size
    rw [keysPushed, Array.size_push, Array.size_push, size]
  · intro i state hi
    rcases cases hi with ⟨rfl, rfl⟩ | hi
    · refine ⟨?_, State.sound_stateOf wf fitsKnown fits, ?_, .inr ⟨symbol, moved⟩⟩
      · change (keys.insert _).elements[states.size]? = _
        rw [keysPushed, ← size]
        exact Array.getElem?_push_size
      · intro symbol target ht
        cases ht
    · refine (built.placed hi).evolve evolves ?_
      change (keys.insert _).elements[i]? = keys.elements[i]?
      rw [keysPushed, Array.getElem?_push, size, if_neg]
      exact Nat.ne_of_lt (Array.getElem?_eq_some_iff.mp hi).1

/-! ### Absorbing a kernel -/

/-- A state with more in its kernel. -/
def State.grow (cfg : Cfg) (known : FirstSets) (kernel : ItemSet) (state : State) : State :=
  { state with
    kernel := state.kernel.merge kernel.items
    items := cfg.closure known (state.kernel.merge kernel.items) }

theorem absorb_of_le (ht : collection.states[target]? = some state) (h : kernel.Le state.kernel) :
    collection.absorb cfg known target kernel = collection := by
  obtain ⟨states, keys, queue⟩ := collection
  have there : states.getD target default = state := by
    rw [Array.getD_eq_getD_getElem?, ht]
    rfl
  rw [absorb, there]
  exact if_pos (List.all_eq_true.mpr fun item hm => ItemSet.covers_of_le h hm)

theorem absorb_of_not_le (ht : collection.states[target]? = some state) (h : ¬kernel.Le state.kernel) :
    collection.absorb cfg known target kernel =
      { states := collection.states.modify target (State.grow cfg known kernel)
        keys := collection.keys
        queue := if target ∈ collection.queue then collection.queue else collection.queue ++ [target] } := by
  obtain ⟨states, keys, queue⟩ := collection
  have there : states.getD target default = state := by
    rw [Array.getD_eq_getD_getElem?, ht]
    rfl
  have grown : (states.modify target fun other => ⟨state.kernel.merge kernel.items,
      cfg.closure known (state.kernel.merge kernel.items), other.transitions⟩) =
        states.modify target (State.grow cfg known kernel) := by
    refine Array.ext_getElem? fun i => ?_
    rw [Array.getElem?_modify, Array.getElem?_modify]
    split
    · rename_i same
      subst same
      rw [show states[target]? = some state from ht]
      rfl
    · rfl
  rw [absorb, there, if_neg fun hall => h (ItemSet.le_of_covers (List.all_eq_true.mp hall))]
  exact congrArg
    (fun states => (⟨states, keys, if target ∈ queue then queue else queue ++ [target]⟩ : Collection)) grown

theorem getElem?_grown (ht : collection.states[target]? = some state) :
    (collection.states.modify target (State.grow cfg known kernel))[i]? =
      if target = i then some (State.grow cfg known kernel state) else collection.states[i]? := by
  rw [Array.getElem?_modify]
  split
  · rename_i same
    subst same
    rw [ht]
    rfl
  · rfl

theorem State.sound_grow (wf : cfg.WellFormed) (fitsKnown : known.Fits cfg) (fits : kernel.Fits cfg)
    (sound : state.Sound cfg known) : (State.grow cfg known kernel state).Sound cfg known := by
  have fitsGrown : (state.kernel.merge kernel.items).Fits cfg := ItemSet.fits_merge sound.fits fits
  exact ⟨fitsGrown, Cfg.isClosure_closure wf fitsKnown fitsGrown, sound.nodup⟩

theorem State.has_grow (cores : ∀ core, kernel.Has core → state.kernel.Has core) {core : Core}
    (hc : (State.grow cfg known kernel state).kernel.Has core) : state.kernel.Has core := by
  rcases ItemSet.has_merge.mp hc with hc | hc
  · exact hc
  · exact cores core (kernel.has_iff.mpr hc)

theorem State.becomes_grow (changed : Symbol → Prop) (cores : ∀ core, kernel.Has core → state.kernel.Has core) :
    state.Becomes changed (State.grow cfg known kernel state) :=
  ⟨ItemSet.le_merge _ _, fun _ => State.has_grow cores, fun _ _ => rfl⟩

/-- A kernel that brings something new makes progress. -/
theorem State.countHolding_grow (known : FirstSets) (fits : kernel.Fits cfg) (h : ¬kernel.Le state.kernel) :
    countHolding cfg.kernelFacts state.kernel.Holds <
      countHolding cfg.kernelFacts (State.grow cfg known kernel state).kernel.Holds := by
  have new : ∃ item ∈ kernel.items, ¬state.kernel.covers item.core item.lookahead :=
    Classical.byContradiction fun hno => h (ItemSet.le_of_covers fun item hm =>
      Classical.byContradiction fun hc => hno ⟨item, hm, hc⟩)
  -- one item of the kernel says what the state has not known
  obtain ⟨item, hm, hc⟩ := new
  obtain ⟨isCore, fitsItem⟩ := fits item hm
  exact ItemSet.countHolding_lt (ItemSet.le_merge _ _) (Cfg.mem_allCores.mpr isCore) fitsItem hc
    (ItemSet.covers_of_le (ItemSet.items_le_merge _ _) hm)

theorem sum_map_modify {states : List State} {f : State → State} (measure : State → Nat)
    (h : states[i]? = some state) : ((states.modify i f).map measure).sum + measure state =
      (states.map measure).sum + measure (f state) := by
  induction states generalizing i with
  | nil => cases h
  | cons first rest ih =>
    cases i with
    | zero =>
      cases h
      simp only [List.modify_zero_cons, List.map_cons, List.sum_cons]
      omega
    | succ i =>
      have := ih (i := i) h
      simp only [List.modify_succ_cons, List.map_cons, List.sum_cons]
      omega

/-- **Absorbing brings no new cores**, so the state stays what it was, with more terminals. -/
theorem evolves_absorb (known : FirstSets) (fits : kernel.Fits cfg) (ht : collection.states[target]? = some state)
    (cores : ∀ core, kernel.Has core → state.kernel.Has core) :
    Evolves cfg (fun _ _ => False) collection (collection.absorb cfg known target kernel) := by
  by_cases h : kernel.Le state.kernel
  · rw [absorb_of_le ht h]
    exact .refl _ _ _
  rw [absorb_of_not_le ht h]
  -- the one state that changes is in the queue
  have queued : target ∈ if target ∈ collection.queue then collection.queue
      else collection.queue ++ [target] := by
    split
    · assumption
    · exact List.mem_append_right _ (List.mem_singleton_self _)
  refine ⟨?_, ?_, ?_, ?_⟩
  · intro i hi
    simp only
    split
    · exact hi
    · exact List.mem_append_left _ hi
  · intro i old hi
    by_cases same : target = i
    · subst same
      cases ht.symm.trans hi
      exact ⟨_, (getElem?_grown ht).trans (if_pos rfl), State.becomes_grow _ cores⟩
    · exact ⟨old, (getElem?_grown ht).trans ((if_neg same).trans hi), .refl old⟩
  · intro i new hi
    rw [getElem?_grown ht] at hi
    split at hi
    · rename_i same
      exact .inl (same ▸ queued)
    · exact .inr ⟨new, hi, rfl⟩
  -- the queue grows by one at most, and so much the kernel says more
  · have grown := State.countHolding_grow known fits h
    have sum := sum_map_modify (f := State.grow cfg known kernel)
      (fun state => countHolding cfg.kernelFacts state.kernel.Holds + 1)
      (show collection.states.toList[target]? = some state by rwa [Array.getElem?_toList])
    have length : (if target ∈ collection.queue then collection.queue
        else collection.queue ++ [target]).length ≤ collection.queue.length + 1 := by
      split <;> simp
    simp only [progress, Array.toList_modify]
    omega

/-- Where states are not merged, kernels with the same key have the same items, so neither brings anything new. -/
theorem mergeCores_of_not_le {other : ItemSet} (keys : Key.ofKernel mergeCores kernel = Key.ofKernel mergeCores other)
    (h : ¬kernel.Le other) : mergeCores = true := by
  cases mergeCores with
  | true => rfl
  | false =>
    refine absurd (ItemSet.le_of_covers fun item hm => ?_) h
    exact ItemSet.covers_of_le (.refl _) ((Key.mem_items_iff_of_ofKernel_eq keys item).mp hm)

theorem Built.absorb (wf : cfg.WellFormed) (fitsKnown : known.Fits cfg) (fits : kernel.Fits cfg)
    (built : collection.Built cfg known mergeCores) (ht : collection.states[target]? = some state)
    (keys : Key.ofKernel mergeCores kernel = Key.ofKernel mergeCores state.kernel) :
    (collection.absorb cfg known target kernel).Built cfg known mergeCores := by
  have cores := Key.has_iff_of_ofKernel_eq keys
  have evolves := evolves_absorb known fits ht fun core => (cores core).mp
  by_cases h : kernel.Le state.kernel
  · rwa [absorb_of_le ht h]
  obtain rfl := mergeCores_of_not_le keys h
  rw [absorb_of_not_le ht h] at evolves ⊢
  have sound := built.sound target state ht
  have soundGrown := State.sound_grow wf fitsKnown fits sound
  have becomes : state.Becomes (fun _ => False) (State.grow cfg known kernel state) :=
    State.becomes_grow _ fun core => (cores core).mp
  have grownHas (core : Core) :
      (State.grow cfg known kernel state).kernel.Has core ↔ state.kernel.Has core :=
    ⟨becomes.has core, becomes.kernel_le.has core⟩
  refine built_of_placed ?_ ?_
  · rw [Array.size_modify]
    exact built.size_eq
  · intro i new hi
    rw [getElem?_grown ht] at hi
    split at hi
    · rename_i same
      subst same
      cases hi
      have placed := built.placed ht
      refine ⟨?_, soundGrown, ?_, ?_⟩
      · refine placed.key.trans (congrArg some ?_)
        exact Key.ofKernel_eq_of_has fun core => (grownHas core).symm
      · intro symbol j hj
        exact (placed.advances symbol j hj).evolve (i := target) evolves sound soundGrown becomes
      · exact placed.moved.imp_right fun ⟨symbol, moved⟩ => ⟨symbol, moved.congr grownHas⟩
    · exact (built.placed hi).evolve evolves rfl

theorem exists_matches_absorb (cfg : Cfg) (known : FirstSets) (ht : collection.states[target]? = some state)
    (cores : ∀ core, kernel.Has core ↔ state.kernel.Has core) :
    ∃ next, (collection.absorb cfg known target kernel).states[target]? = some next ∧
      next.Matches kernel := by
  by_cases h : kernel.Le state.kernel
  · rw [absorb_of_le ht h]
    exact ⟨state, ht, h, fun core => (cores core).mpr⟩
  · rw [absorb_of_not_le ht h]
    exact ⟨_, (getElem?_grown ht).trans (if_pos rfl), ItemSet.items_le_merge _ _,
      fun core hc => (cores core).mpr (State.has_grow (fun core => (cores core).mp) hc)⟩

/-! ### Connecting states -/

/-- The state with a transition. -/
def State.connect (symbol : Symbol) (target : Nat) (state : State) : State :=
  { state with transitions := setTransition symbol target state.transitions }

theorem getElem?_connect : (collection.connect source symbol target).states[i]? =
    if source = i then (collection.states[i]?).map (State.connect symbol target)
    else collection.states[i]? := Array.getElem?_modify

theorem State.lookup_connect (symbol : Symbol) (target : Nat) (state : State) (other : Symbol) :
    (state.connect symbol target).transitions.lookup other =
      if other = symbol then some target else state.transitions.lookup other := by
  rw [State.connect, setTransition_eq_alter, lookup_alter]

theorem State.becomes_connect (symbol : Symbol) (target : Nat) (state : State) :
    state.Becomes (· = symbol) (state.connect symbol target) :=
  ⟨.refl _, fun _ => id, fun other differs => (state.lookup_connect symbol target other).trans (if_neg differs)⟩

theorem State.sound_connect (symbol : Symbol) (target : Nat) (sound : state.Sound cfg known) :
    (state.connect symbol target).Sound cfg known := by
  refine ⟨sound.fits, sound.isClosure, ?_⟩
  rw [State.connect, setTransition_eq_alter]
  exact nodup_alter sound.nodup

theorem evolves_connect (cfg : Cfg) (collection : Collection) (source : Nat) (symbol : Symbol) (target : Nat) :
    Evolves cfg (fun i s => i = source ∧ s = symbol) collection
      (collection.connect source symbol target) := by
  refine ⟨fun i hi => hi, fun i old hi => ?_, fun i new hi => ?_, Nat.le_of_eq ?_⟩
  · rw [getElem?_connect, hi]
    split
    · rename_i same
      subst same
      exact ⟨_, rfl, (old.becomes_connect symbol target).mono fun s hs => ⟨rfl, hs⟩⟩
    · exact ⟨old, rfl, .refl old⟩
  · rw [getElem?_connect] at hi
    split at hi
    · obtain ⟨old, hold, rfl⟩ := Option.map_eq_some_iff.mp hi
      exact .inr ⟨old, hold, rfl⟩
    · exact .inr ⟨new, hi, rfl⟩
  -- progress looks at kernels only, and these stay
  · have kernels : (collection.connect source symbol target).states.toList.map State.kernel =
        collection.states.toList.map State.kernel := by
      refine List.ext_getElem? fun i => ?_
      rw [List.getElem?_map, List.getElem?_map, Array.getElem?_toList, Array.getElem?_toList,
        getElem?_connect]
      split
      · rw [Option.map_map]
        rfl
      · rfl
    have measured (c : Collection) : progress cfg c =
        ((c.states.toList.map State.kernel).map fun kernel =>
          countHolding cfg.kernelFacts kernel.Holds + 1).sum := by
      rw [progress, List.map_map]
      rfl
    rw [measured, measured, kernels]
    rfl

theorem Built.connect (built : collection.Built cfg known mergeCores)
    (hs : collection.states[source]? = some state)
    (advances : Advances cfg collection.states state symbol target) :
    (collection.connect source symbol target).Built cfg known mergeCores := by
  have evolves := evolves_connect cfg collection source symbol target
  refine built_of_placed (built.size_eq.trans Array.size_modify.symm) ?_
  intro i new hi
  rw [getElem?_connect] at hi
  split at hi
  · rename_i same
    subst same
    rw [hs] at hi
    cases hi
    have placed := built.placed hs
    have becomes : state.Becomes (fun s => source = source ∧ s = symbol) (state.connect symbol target) :=
      (state.becomes_connect symbol target).mono fun s h => ⟨rfl, h⟩
    have soundConnected := State.sound_connect symbol target placed.sound
    refine ⟨placed.key, soundConnected, ?_, placed.moved⟩
    -- behind the symbol it leads to the target, else where it led
    intro other j hj
    rw [State.lookup_connect] at hj
    split at hj
    · rename_i same
      subst same
      cases hj
      exact advances.evolve (i := source) evolves placed.sound soundConnected becomes
    · exact (placed.advances other j hj).evolve (i := source) evolves placed.sound soundConnected becomes
  · exact (built.placed hi).evolve evolves rfl

/-! ### Following transitions -/

/-- A transition is connected to a state that matches its kernel, old or new. -/
theorem follow_eq (source : Nat) (wf : cfg.WellFormed) (fitsKnown : known.Fits cfg)
    (fits : kernel.Fits cfg) (moved : IsMoved cfg symbol kernel)
    (built : collection.Built cfg known mergeCores) : ∃ middle target next,
      collection.follow cfg known mergeCores source (symbol, kernel) = middle.connect source symbol target ∧
      middle.Built cfg known mergeCores ∧ Evolves cfg (fun _ _ => False) collection middle ∧
      middle.states[target]? = some next ∧ next.Matches kernel := by
  rw [follow]
  simp only
  cases found : collection.keys.number? (Key.ofKernel mergeCores kernel) with
  | some target =>
    -- the key is known: its state absorbs the kernel
    have place := collection.keys.number?_eq_some_iff.mp found
    have bound : target < collection.states.size :=
      built.size_eq ▸ (Array.getElem?_eq_some_iff.mp place).1
    have ht := Array.getElem?_eq_getElem bound
    have keys : Key.ofKernel mergeCores kernel = Key.ofKernel mergeCores collection.states[target].kernel :=
      Option.some.inj (place.symm.trans (built.key target _ ht))
    have cores := Key.has_iff_of_ofKernel_eq keys
    obtain ⟨next, hnext, hmatches⟩ := exists_matches_absorb cfg known ht cores
    exact ⟨_, target, next, rfl, built.absorb wf fitsKnown fits ht keys,
      evolves_absorb known fits ht fun core => (cores core).mp, hnext, hmatches⟩
  | none =>
    -- the key is new: a state is made of the kernel
    have pushed : (collection.push cfg known (Key.ofKernel mergeCores kernel) kernel).states =
        collection.states.push (stateOf cfg known kernel) := rfl
    refine ⟨_, _, stateOf cfg known kernel, rfl, built.push wf fitsKnown fits moved found, evolves_push _ _ _,
      ?_, .refl _, fun _ => id⟩
    rw [pushed, Array.getElem?_push_size]

/-- How far a state has been followed whose items were `items` when it left the queue. -/
structure Followed (source : Nat) (items : ItemSet) (done : List (Symbol × ItemSet)) (state : State)
    (collection : Collection) : Prop where
  there : collection.states[source]? = some state
  kept : source ∈ collection.queue ∨ state.items = items
  has_iff : ∀ core, state.items.Has core ↔ items.Has core
  leads : ∀ transition ∈ done, Leads collection.states state transition.1 transition.2.Le

/-- What has been followed stays so while the target is looked for. -/
theorem Followed.evolve {items : ItemSet} {done : List (Symbol × ItemSet)} {middle : Collection}
    (followed : Followed source items done state collection) (built : collection.Built cfg known mergeCores)
    (built' : middle.Built cfg known mergeCores) (evolves : Evolves cfg (fun _ _ => False) collection middle) :
    ∃ old, Followed source items done old middle := by
  obtain ⟨old, hold, becomes⟩ := evolves.state source state followed.there
  have sound := built.sound source state followed.there
  have soundOld := built'.sound source old hold
  refine ⟨old, hold, ?_, fun core => (becomes.items_has_iff sound soundOld core).trans (followed.has_iff core),
    fun transition ht => ?_⟩
  · rcases evolves.items source old hold with queued | ⟨before, hbefore, same⟩
    · exact .inl queued
    · cases followed.there.symm.trans hbefore
      exact followed.kept.imp (evolves.queue source) same.trans
  · exact (followed.leads transition ht).evolve (i := source) evolves becomes id fun _ _ hle h => h.trans hle

/-- Connecting the target of one more transition leaves those that have been followed. -/
theorem Followed.connect (cfg : Cfg) {items : ItemSet} {done : List (Symbol × ItemSet)} {next : State}
    (followed : Followed source items done state collection) (hnext : collection.states[target]? = some next)
    (hmatches : next.Matches kernel) (new : symbol ∉ done.map Prod.fst) :
    Followed source items (done ++ [(symbol, kernel)]) (state.connect symbol target)
      (collection.connect source symbol target) := by
  have connects := evolves_connect cfg collection source symbol target
  refine ⟨?_, followed.kept, followed.has_iff, fun transition ht => ?_⟩
  · rw [getElem?_connect, if_pos rfl, followed.there]
    rfl
  · rcases List.mem_append.mp ht with ht | ht
    · have differs : transition.1 ≠ symbol := fun he => new (he ▸ List.mem_map_of_mem ht)
      exact (followed.leads transition ht).evolve (i := source) connects
        ((state.becomes_connect symbol target).mono fun s hs => ⟨rfl, hs⟩) (fun h => differs h.2)
        fun _ _ hle h => h.trans hle
    · cases List.mem_singleton.mp ht
      obtain ⟨next', hnext', grown⟩ := connects.state target next hnext
      exact ⟨target, next', (state.lookup_connect symbol target symbol).trans (if_pos rfl), hnext',
        hmatches.kernel_le.trans grown.kernel_le⟩

theorem Followed.follow {items : ItemSet} {done : List (Symbol × ItemSet)} (wf : cfg.WellFormed)
    (fitsKnown : known.Fits cfg) (built : collection.Built cfg known mergeCores)
    (followed : Followed source items done state collection)
    (isKernel : cfg.IsKernel symbol items.items kernel) (nonempty : ∃ core, kernel.Has core)
    (new : symbol ∉ done.map Prod.fst) : ∃ state',
      (collection.follow cfg known mergeCores source (symbol, kernel)).Built cfg known mergeCores ∧
      Evolves cfg (fun i _ => i = source) collection
        (collection.follow cfg known mergeCores source (symbol, kernel)) ∧
      Followed source items (done ++ [(symbol, kernel)]) state'
        (collection.follow cfg known mergeCores source (symbol, kernel)) := by
  have moved : IsMoved cfg symbol kernel := ⟨nonempty, fun core hc => by
    obtain ⟨item, -, hsymbol, hadvance⟩ := (isKernel.has_iff core).mp hc
    exact ⟨item.core, hsymbol, hadvance⟩⟩
  obtain ⟨middle, target, next, eq, builtMiddle, evolves, hnext, hmatches⟩ :=
    follow_eq source wf fitsKnown isKernel.fits moved built
  rw [eq]
  obtain ⟨old, followed⟩ := followed.evolve built builtMiddle evolves
  -- no core has been added on the way, so each of the target has moved on from an item of the source
  have advances : Advances cfg middle.states old symbol target := by
    refine ⟨next, hnext, fun core hc => ?_⟩
    obtain ⟨item, hm, hsymbol, hadvance⟩ := (isKernel.has_iff core).mp (hmatches.has core hc)
    exact ⟨item.core, (followed.has_iff _).mpr (items.has_iff.mpr ⟨item, hm, rfl⟩), hsymbol, hadvance⟩
  have connects := evolves_connect cfg middle source symbol target
  exact ⟨old.connect symbol target, builtMiddle.connect followed.there advances,
    (evolves.mono fun _ _ => False.elim).trans (connects.mono fun _ _ => And.left),
    followed.connect cfg hnext hmatches new⟩

/-- Following all transitions of a state one by one. -/
theorem Followed.followAll {items : ItemSet} {rest done : List (Symbol × ItemSet)} (wf : cfg.WellFormed)
    (fitsKnown : known.Fits cfg) (built : collection.Built cfg known mergeCores)
    (followed : Followed source items done state collection)
    (isTransitions : cfg.IsTransitions items.items (done ++ rest)) :
    ∃ state', (rest.foldl (Collection.follow cfg known mergeCores source) collection).Built cfg known mergeCores ∧
      Evolves cfg (fun i _ => i = source) collection
        (rest.foldl (Collection.follow cfg known mergeCores source) collection) ∧
      Followed source items (done ++ rest) state'
        (rest.foldl (Collection.follow cfg known mergeCores source) collection) := by
  -- the symbols in front are all different from the next one, so that connecting it leaves them
  induction rest generalizing collection done state with
  | nil =>
    rw [List.append_nil]
    exact ⟨state, built, .refl _ _ _, followed⟩
  | cons transition rest ih =>
    obtain ⟨symbol, kernel⟩ := transition
    have lookup := lookup_eq_some_of_mem isTransitions.nodup
      (List.mem_append_right done (List.mem_cons_self (a := (symbol, kernel)) (l := rest)))
    have isKernel := isTransitions.isKernel symbol
    rw [lookup, Option.getD_some] at isKernel
    have new : symbol ∉ done.map Prod.fst := by
      have nodup := isTransitions.nodup
      rw [List.map_append, List.nodup_append] at nodup
      exact fun hm => nodup.2.2 symbol hm symbol List.mem_cons_self rfl
    obtain ⟨state', built', evolves, followed'⟩ := followed.follow wf fitsKnown built isKernel
      (isTransitions.nonempty symbol kernel lookup) new
    rw [List.append_cons] at isTransitions ⊢
    obtain ⟨last, builtLast, evolvesLast, followedLast⟩ := ih built' followed' isTransitions
    exact ⟨last, builtLast, evolves.trans evolvesLast, followedLast⟩

/-- A followed state is in the queue again or led. -/
theorem Followed.settled {items : ItemSet} (fits : items.Fits cfg)
    (followed : Followed source items (cfg.transitions items) state collection) :
    source ∈ collection.queue ∨ IsLed cfg collection.states state := by
  refine followed.kept.imp_right fun same item hm symbol next => ?_
  rw [same] at hm
  have isTransitions := Cfg.isTransitions_transitions fits
  have covers := (isTransitions.isKernel symbol).covers hm next
  cases hk : (cfg.transitions items).lookup symbol with
  | none =>
    rw [hk, Option.getD_none] at covers
    exact absurd ((ItemSet.covers_iff _).mp covers).1 ItemSet.not_has_empty
  | some kernel =>
    rw [hk, Option.getD_some] at covers
    obtain ⟨target, next', htarget, hnext, hle⟩ := followed.leads _ (mem_of_lookup_eq_some hk)
    exact ⟨target, next', htarget, hnext, hle.covers covers⟩

/-! ### Visits -/

/-- The collection after the visit of a state that has left the queue. -/
def visit (cfg : Cfg) (known : FirstSets) (mergeCores : Bool) (source : Nat) (collection : Collection) :
    Collection :=
  (cfg.transitions (collection.states.getD source default).items).foldl
    (follow cfg known mergeCores source) collection

/-- **A visit settles the state.** -/
theorem settled_visit (wf : cfg.WellFormed) (fitsKnown : known.Fits cfg)
    (built : collection.Built cfg known mergeCores) (settled : Settled cfg (· = source) collection) :
    (collection.visit cfg known mergeCores source).Built cfg known mergeCores ∧
      Settled cfg (fun _ => False) (collection.visit cfg known mergeCores source) ∧
      Evolves cfg (fun i _ => i = source) collection (collection.visit cfg known mergeCores source) := by
  rw [visit, Array.getD_eq_getD_getElem?]
  cases hs : collection.states[source]? with
  | none =>
    refine ⟨built, ?_, .refl _ _ _⟩
    intro i state hi
    rcases settled i state hi with queued | rfl | led
    · exact .inl queued
    · cases hs.symm.trans hi
    · exact .inr (.inr led)
  | some state =>
    have fits := (built.sound source state hs).isClosure.fits
    have begun : Followed source state.items [] state collection :=
      ⟨hs, .inr rfl, fun _ => Iff.rfl, fun _ h => absurd h List.not_mem_nil⟩
    obtain ⟨last, built', evolves, followed⟩ :=
      begun.followAll wf fitsKnown built (Cfg.isTransitions_transitions fits)
    refine ⟨built', ?_, evolves⟩
    intro i new hi
    rcases settled.evolve evolves (fun _ _ h => h) i new hi with queued | rfl | led
    · exact .inl queued
    · cases followed.there.symm.trans hi
      exact (followed.settled fits).imp_right .inr
    · exact .inr (.inr led)

/-- **There is no more progress than visits.** -/
theorem progress_le (built : collection.Built cfg known mergeCores) :
    progress cfg collection ≤ cfg.visitBound := by
  have keys : (collection.states.toList.map State.kernel).map (Key.ofKernel mergeCores) =
      collection.keys.toList := by
    refine List.ext_getElem (by simp [Numbering.toList, built.size_eq]) fun i hi hi' => ?_
    have bound : i < collection.states.size := by simpa using hi
    have key := built.key i _ (Array.getElem?_eq_getElem bound)
    rw [← Array.getElem?_toList, ← Numbering.toList, List.getElem?_eq_getElem hi'] at key
    simpa using (Option.some.inj key).symm
  -- the keys differ from state to state, and there are as many as sets of kernel facts
  have states : collection.states.toList.length ≤ 2 ^ (cfg.coreCount * (cfg.terminalCount + 1)) := by
    rw [← List.length_map (f := State.kernel)]
    refine Cfg.length_le_of_nodup_keys (fun kernel hk => ?_) (keys ▸ collection.keys.nodup_toList)
    obtain ⟨state, hs, rfl⟩ := List.mem_map.mp hk
    obtain ⟨i, hi⟩ := List.mem_iff_getElem?.mp hs
    exact (built.sound i state (Array.getElem?_toList ▸ hi)).fits
  have each : progress cfg collection ≤
      collection.states.toList.length * (cfg.coreCount * (cfg.terminalCount + 1) + 1) := by
    rw [progress]
    generalize collection.states.toList = states
    induction states with
    | nil => simp
    | cons state states ih =>
      have count : countHolding cfg.kernelFacts state.kernel.Holds ≤
          cfg.coreCount * (cfg.terminalCount + 1) := Cfg.length_kernelFacts ▸ countHolding_le_length
      rw [List.map_cons, List.sum_cons, List.length_cons, Nat.succ_mul]
      omega
  exact Nat.le_trans each (Nat.mul_le_mul_right _ states)

section Queue
variable {states : Array State} {keys : Numbering Key} {queue : List Nat}

theorem Built.withQueue (built : Built cfg known mergeCores ⟨states, keys, queue⟩) (other : List Nat) :
    Built cfg known mergeCores ⟨states, keys, other⟩ :=
  ⟨built.size_eq, built.key, built.sound, built.advances, built.moved⟩

/-- The state that leaves the queue is the one that may be unsettled. -/
theorem Settled.pop (settled : Settled cfg (fun _ => False) ⟨states, keys, source :: queue⟩) :
    Settled cfg (· = source) ⟨states, keys, queue⟩ := by
  intro i state hi
  rcases settled i state hi with queued | no | led
  · exact (List.mem_cons.mp queued).elim (fun h => .inr (.inl h)) .inl
  · exact no.elim
  · exact .inr (.inr led)

end Queue

/-- **The queue runs empty**: in the end all states are led. -/
theorem isLed_grow {visits : Nat} (wf : cfg.WellFormed) (fitsKnown : known.Fits cfg)
    (built : collection.Built cfg known mergeCores) (settled : Settled cfg (fun _ => False) collection)
    (enough : collection.queue.length + cfg.visitBound ≤ visits + progress cfg collection) :
    (collection.grow cfg known mergeCores visits).Built cfg known mergeCores ∧
      (∀ (i : Nat) state, (collection.grow cfg known mergeCores visits).states[i]? = some state →
        IsLed cfg (collection.grow cfg known mergeCores visits).states state) ∧
      ∀ (i : Nat) old, collection.states[i]? = some old →
        ∃ new, (collection.grow cfg known mergeCores visits).states[i]? = some new ∧
          old.Becomes (fun _ => True) new := by
  have done {collection : Collection} (settled : Settled cfg (fun _ => False) collection)
      (empty : collection.queue = []) (i : Nat) (state : State) (hi : collection.states[i]? = some state) :
      IsLed cfg collection.states state := by
    rcases settled i state hi with queued | no | led
    · rw [empty] at queued
      cases queued
    · exact no.elim
    · exact led
  induction visits generalizing collection with
  | zero =>
    have := progress_le built
    have empty : collection.queue = [] := List.eq_nil_of_length_eq_zero (by omega)
    exact ⟨built, done settled empty, fun i old hi => ⟨old, hi, .refl old⟩⟩
  | succ visits ih =>
    obtain ⟨states, keys, queue⟩ := collection
    cases queue with
    | nil => exact ⟨built, done settled rfl, fun i old hi => ⟨old, hi, .refl old⟩⟩
    | cons source queue =>
      obtain ⟨built', settled', evolves⟩ := settled_visit wf fitsKnown (built.withQueue queue) settled.pop
      have spent : queue.length + 1 + cfg.visitBound ≤
          visits + 1 + progress cfg ⟨states, keys, queue⟩ := enough
      have gained := evolves.progress
      simp only at gained
      -- a visit is spent on it, and what it queues it has made up for by progress
      obtain ⟨builtLast, led, keeps⟩ := ih built' settled' (by omega)
      refine ⟨builtLast, led, ?_⟩
      intro i old hi
      obtain ⟨new, hnew, becomes⟩ := evolves.state i old hi
      obtain ⟨last, hlast, becomes'⟩ := keeps i new hnew
      exact ⟨last, hlast, (becomes.mono fun _ _ => trivial).trans becomes'⟩

end Collection

/-! ## The automaton -/

namespace Cfg
variable {cfg : Cfg} {mergeCores : Bool}

/-- **What the states of a grammar are.** -/
structure IsAutomaton (cfg : Cfg) (states : List Collection.State) : Prop where
  sound : ∀ (i : Nat) state, states[i]? = some state → state.Sound cfg cfg.firstSets
  start : ∃ state, states[0]? = some state ∧ (∀ core, state.kernel.Has core ↔ core = ⟨cfg.augmented, 0⟩) ∧
    state.kernel.Allows ⟨cfg.augmented, 0⟩ endTerminal
  advances : ∀ (i : Nat) state, states[i]? = some state → ∀ symbol target,
    state.transitions.lookup symbol = some target → ∃ next, states[target]? = some next ∧
      ∀ core, next.kernel.Has core →
        ∃ old, state.items.Has old ∧ cfg.nextSymbol? old = some symbol ∧ old.advance = core
  /-- Every state but the first is led to by a symbol. -/
  moved : ∀ (i : Nat) state, states[i]? = some state →
    i = 0 ∨ ∃ symbol, Collection.IsMoved cfg symbol state.kernel
  leads : ∀ (i : Nat) state, states[i]? = some state → ∀ item ∈ state.items.items, ∀ symbol,
    cfg.nextSymbol? item.core = some symbol → ∃ target next,
      state.transitions.lookup symbol = some target ∧ states[target]? = some next ∧
        next.kernel.covers item.core.advance item.lookahead

/-- No kernel is empty. -/
theorem IsAutomaton.exists_core {states : List Collection.State} (automaton : cfg.IsAutomaton states) {i : Nat}
    {state : Collection.State} (hs : states[i]? = some state) : ∃ core, state.kernel.Has core := by
  rcases automaton.moved i state hs with rfl | ⟨symbol, moved⟩
  · obtain ⟨start, hstart, cores, -⟩ := automaton.start
    cases hstart.symm.trans hs
    exact ⟨_, (cores _).mpr rfl⟩
  · exact moved.nonempty

/-- Behind a symbol an item has moved on, and its lookahead with it. -/
theorem IsAutomaton.exists_advanced {states : List Collection.State} (automaton : cfg.IsAutomaton states)
    {i target : Nat} {state : Collection.State} {item : Item} {symbol : Symbol} (hs : states[i]? = some state)
    (hm : item ∈ state.items.items) (hsymbol : cfg.nextSymbol? item.core = some symbol)
    (leads : state.transitions.lookup symbol = some target) : ∃ next, states[target]? = some next ∧
      next.items.Has item.core.advance ∧
      ∀ t, item.lookahead.contains t → next.items.Allows item.core.advance t := by
  obtain ⟨target', next, leads', hnext, covers⟩ := automaton.leads i state hs item hm symbol hsymbol
  cases leads.symm.trans leads'
  obtain ⟨has, allows⟩ := (ItemSet.covers_iff _).mp covers
  have le := (automaton.sound _ next hnext).isClosure.kernel_le
  exact ⟨next, hnext, le.has _ has, fun t ht => le.allows _ _ (allows t ht)⟩

theorem has_startKernel {core : Core} : cfg.startKernel.Has core ↔ core = ⟨cfg.augmented, 0⟩ := by
  rw [startKernel, ItemSet.has_insert]
  exact or_iff_right ItemSet.not_has_empty

theorem fits_startKernel (wf : cfg.WellFormed) : cfg.startKernel.Fits cfg :=
  ItemSet.fits_empty.insert (isCore_zero (Nat.le_refl _))
    ((TerminalSet.fits_ofSize _).insert wf.endTerminal_lt)

/-- The collection that the construction begins with. -/
def firstCollection (cfg : Cfg) (mergeCores : Bool) : Collection :=
  ⟨#[Collection.stateOf cfg cfg.firstSets cfg.startKernel], .ofList [Key.ofKernel mergeCores cfg.startKernel], [0]⟩

theorem elements_keys_firstCollection : (cfg.firstCollection mergeCores).keys.elements =
    #[Key.ofKernel mergeCores cfg.startKernel] := Numbering.elements_ofList_singleton _

/-- It has one state. -/
theorem eq_of_getElem?_firstCollection {i : Nat} {state : State}
    (hi : (cfg.firstCollection mergeCores).states[i]? = some state) :
    i = 0 ∧ state = Collection.stateOf cfg cfg.firstSets cfg.startKernel := by
  cases i with
  | zero => exact ⟨rfl, (Option.some.inj hi).symm⟩
  | succ i => cases hi

theorem built_firstCollection (wf : cfg.WellFormed) (mergeCores : Bool) :
    (cfg.firstCollection mergeCores).Built cfg cfg.firstSets mergeCores := by
  refine Collection.built_of_placed (congrArg Array.size elements_keys_firstCollection) ?_
  intro i state hi
  obtain ⟨rfl, rfl⟩ := eq_of_getElem?_firstCollection hi
  refine ⟨?_, State.sound_stateOf wf (fits_firstSets wf) (fits_startKernel wf), ?_, .inl rfl⟩
  · rw [elements_keys_firstCollection]
    rfl
  · intro symbol target ht
    cases ht

theorem settled_firstCollection : (cfg.firstCollection mergeCores).Settled cfg fun _ => False := by
  intro i state hi
  obtain ⟨rfl, -⟩ := eq_of_getElem?_firstCollection hi
  exact .inl (List.mem_singleton_self 0)

/-- Progress begins with the first state. -/
theorem one_le_progress_firstCollection (cfg : Cfg) (mergeCores : Bool) :
    1 ≤ (cfg.firstCollection mergeCores).progress cfg := Nat.le_add_left 1 _

/-- **The collection is an automaton**, whether cores are merged or not. -/
theorem isAutomaton_collection (wf : cfg.WellFormed) (mergeCores : Bool) :
    cfg.IsAutomaton (cfg.collection mergeCores) := by
  have built := built_firstCollection wf mergeCores
  have enough : 1 + cfg.visitBound ≤ cfg.visitBound + (cfg.firstCollection mergeCores).progress cfg := by
    have := one_le_progress_firstCollection cfg mergeCores
    omega
  -- the visits are enough, since progress begins with the first state
  obtain ⟨builtLast, led, keeps⟩ := Collection.isLed_grow wf (fits_firstSets wf) built settled_firstCollection enough
  have states (i : Nat) : (cfg.collection mergeCores)[i]? =
      ((cfg.firstCollection mergeCores).grow cfg cfg.firstSets mergeCores cfg.visitBound).states[i]? :=
    Array.getElem?_toList
  refine ⟨?_, ?_, ?_, fun i state hi => builtLast.moved i state (states i ▸ hi), ?_⟩
  · intro i state hi
    exact builtLast.sound i state (states i ▸ hi)
  · obtain ⟨state, hstate, becomes⟩ := keeps 0 _ rfl
    refine ⟨state, (states 0).trans hstate, ?_, ?_⟩
    · intro core
      rw [← has_startKernel]
      exact ⟨becomes.has core, becomes.kernel_le.has core⟩
    · refine becomes.kernel_le.allows _ _ ((ItemSet.allows_insert _).mpr (.inr ⟨rfl, ?_⟩))
      exact TerminalSet.contains_insert.mpr (.inr rfl)
  · intro i state hi symbol target ht
    obtain ⟨next, hnext, cores⟩ := builtLast.advances i state (states i ▸ hi) symbol target ht
    exact ⟨next, (states target).trans hnext, cores⟩
  · intro i state hi item hm symbol hs
    obtain ⟨target, next, ht, hnext, covers⟩ := led i state (states i ▸ hi) item hm symbol hs
    exact ⟨target, next, ht, (states target).trans hnext, covers⟩

end Cfg
end TableParsing
