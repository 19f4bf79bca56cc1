import TableParsing.Proofs.Loop
import TableParsing.Proofs.Lr.Kernels

/-! # The construction of states ends

Three loops make the states of a grammar: the rounds of the first sets, the visits of a closure, and the visits of the
collection.  The functions that run them are given bounds, so they would come to an end in any case.  Here the loops
are taken without a bound, one pass at a time, and **each of them ends by itself**, with nothing left to visit and with
the result that the function gives (`Grammar.Declared.constructionEnds`).

A round that changes something adds a fact about a non-terminal.  A visit of a closure takes an item from the stack, and
what it puts there brings a new beginning of a production or a new terminal behind one.  A visit of the collection takes
a state from the queue, and what it puts there is a new state, or an old one whose kernel has gained a terminal: there
are only so many kernels, and only so many terminals in each. -/

namespace TableParsing

open Collection (Key State)

/-! ## Passes -/

/-- A round, if it brings anything new. -/
def Cfg.round? (cfg : Cfg) (known : FirstSets) : Option FirstSets :=
  if cfg.round cfg.rules.toList known = known then none else some (cfg.round cfg.rules.toList known)

/-- The visit of the item on top of the stack. -/
def Expansion.next? (cfg : Cfg) (known : FirstSets) : Expansion → Option Expansion
  | ⟨_, [], _⟩ => none
  | ⟨items, position :: stack, asked⟩ => some (cfg.visit known position ⟨items, stack, asked⟩)

/-- The visit of the state at the front of the queue. -/
def Collection.next? (cfg : Cfg) (known : FirstSets) (mergeCores : Bool) : Collection → Option Collection
  | ⟨_, _, []⟩ => none
  | ⟨states, keys, source :: queue⟩ => some (Collection.visit cfg known mergeCores source ⟨states, keys, queue⟩)

/-- The collections that the construction comes by, between two visits and in the middle of one. -/
inductive Collection.Underway (cfg : Cfg) (mergeCores : Bool) : Collection → Prop
  | between {visits : Nat} {collection : Collection}
      (passes : Passes (Collection.next? cfg cfg.firstSets mergeCores) visits (cfg.firstCollection mergeCores)
        collection) : Underway cfg mergeCores collection
  | within {visits source : Nat} {states : Array State} {keys : Numbering Key} {queue : List Nat}
      {front back : List (Symbol × ItemSet)}
      (passes : Passes (Collection.next? cfg cfg.firstSets mergeCores) visits (cfg.firstCollection mergeCores)
        ⟨states, keys, source :: queue⟩)
      (followed : cfg.transitions (states.getD source default).items = front ++ back) :
      Underway cfg mergeCores
        (front.foldl (Collection.follow cfg cfg.firstSets mergeCores source) ⟨states, keys, queue⟩)

namespace Cfg

/-- Whether the visits that a kernel leads to come to an end, with nothing left to visit and with some items. -/
def ClosureEnds (cfg : Cfg) (kernel items : ItemSet) : Prop :=
  ∃ visits ≤ kernel.size + cfg.rules.size * (cfg.terminalCount + 1), ∃ last : Expansion,
    Ends (Expansion.next? cfg cfg.firstSets) visits (.start cfg kernel) last ∧ last.stack = [] ∧ last.items = items

/-- **What it means that the construction ends.**  The items of a state are made by a closure whenever its kernel is new
or has grown. -/
structure ConstructionEnds (cfg : Cfg) (mergeCores : Bool) : Prop where
  firstSets : ∃ rounds ≤ cfg.nonTerminalCount * (cfg.terminalCount + 1),
    Ends cfg.round? rounds cfg.noFirstSets cfg.firstSets
  closure : ∀ kernel : ItemSet, kernel.Fits cfg → cfg.ClosureEnds kernel (cfg.closure cfg.firstSets kernel)
  closures : ∀ collection, Collection.Underway cfg mergeCores collection → ∀ state ∈ collection.states,
    state.kernel.Fits cfg ∧ cfg.ClosureEnds state.kernel state.items
  collection : ∃ visits ≤ cfg.visitBound, ∃ last : Collection,
    Ends (Collection.next? cfg cfg.firstSets mergeCores) visits (cfg.firstCollection mergeCores) last ∧
      last.queue = [] ∧ last.states.toList = cfg.collection mergeCores

end Cfg

/-! ## First sets -/

namespace Cfg
variable {cfg : Cfg} {known other : FirstSets}

theorem round_eq_of_round?_eq_none (h : cfg.round? known = none) : cfg.round cfg.rules.toList known = known := by
  rw [round?] at h
  split at h
  · assumption
  · cases h

theorem eq_round_of_round?_eq_some (h : cfg.round? known = some other) :
    other = cfg.round cfg.rules.toList known ∧ other ≠ known := by
  rw [round?] at h
  split at h
  · cases h
  · rename_i changed
    cases h
    exact ⟨rfl, changed⟩

/-- **The first sets take no more rounds than there are facts.** -/
theorem ends_firstSets (wf : cfg.WellFormed) : ∃ rounds ≤ cfg.nonTerminalCount * (cfg.terminalCount + 1),
    Ends cfg.round? rounds cfg.noFirstSets cfg.firstSets := by
  have mem : ∀ rule ∈ cfg.rules.toList, rule ∈ cfg.rules := fun _ h => Array.mem_toList_iff.mp h
  have gains (known other : FirstSets) (fits : known.Fits cfg) (here : cfg.round? known = some other) :
      other.Fits cfg ∧ cfg.factNumbers.length - countHolding cfg.factNumbers other.Knows <
        cfg.factNumbers.length - countHolding cfg.factNumbers known.Knows := by
    obtain ⟨rfl, changed⟩ := eq_round_of_round?_eq_some here
    have fits' := fits_round wf mem fits
    have more := countHolding_knows_lt fits fits' (le_round wf mem fits) changed
    exact ⟨fits', Nat.sub_lt_sub_left (Nat.lt_of_lt_of_le more countHolding_le_length) more⟩
  obtain ⟨rounds, last, enough, ends⟩ := exists_ends _ gains fits_noFirstSets
  have few : rounds ≤ cfg.nonTerminalCount * (cfg.terminalCount + 1) :=
    length_factNumbers ▸ Nat.le_trans enough (Nat.sub_le _ _)
  have result : cfg.firstSets = last := by
    rw [firstSets_eq_stabilize]
    refine ends.run_eq (stabilize (cfg.round cfg.rules.toList)) id (fun bound known none => ?_)
      (fun bound known other here => ?_) (Nat.le_succ_of_le few)
    · cases bound with
      | zero => rfl
      | succ bound => exact if_pos (round_eq_of_round?_eq_none none)
    · obtain ⟨rfl, changed⟩ := eq_round_of_round?_eq_some here
      exact if_neg changed
  exact ⟨rounds, few, result ▸ ends⟩

end Cfg

/-! ## Closures -/

namespace Expansion
variable {cfg : Cfg} {known : FirstSets} {kernel : ItemSet} {run after : Expansion}

theorem stack_eq_nil_of_next?_eq_none (h : run.next? cfg known = none) : run.stack = [] := by
  obtain ⟨items, stack, asked⟩ := run
  cases stack with
  | nil => rfl
  | cons position stack => cases h

theorem Searched.next (wf : cfg.WellFormed) (fitsKnown : known.Fits cfg)
    (searched : run.Searched cfg known kernel fun _ => False) (here : run.next? cfg known = some after) :
    (after.Searched cfg known kernel fun _ => False) ∧ after.potential cfg < run.potential cfg := by
  obtain ⟨items, stack, asked⟩ := run
  cases stack with
  | nil => cases here
  | cons position stack =>
    cases here
    obtain ⟨searched', potential⟩ := searched.visit wf fitsKnown
    refine ⟨searched', Nat.lt_of_le_of_lt potential ?_⟩
    exact Nat.add_lt_add_right (Nat.lt_succ_self stack.length) _

end Expansion

namespace Cfg
variable {cfg : Cfg} {kernel : ItemSet}

/-- **A closure takes no more visits than its kernel has items, and beginnings of productions can gain terminals.** -/
theorem closureEnds_closure (wf : cfg.WellFormed) (fits : kernel.Fits cfg) :
    cfg.ClosureEnds kernel (cfg.closure cfg.firstSets kernel) := by
  obtain ⟨visits, last, enough, ends⟩ := exists_ends (Expansion.potential cfg)
    (fun _ _ searched here => searched.next wf (fits_firstSets wf) here) (Expansion.searched_start fits)
  have few := Nat.le_trans enough Expansion.potential_start_le
  refine ⟨visits, few, last, ends, Expansion.stack_eq_nil_of_next?_eq_none ends.last, ?_⟩
  refine (ends.run_eq (cfg.visitAll cfg.firstSets) (·.items) ?_ ?_ few).symm
  · rintro bound ⟨items, stack, asked⟩ none
    obtain rfl : stack = [] := Expansion.stack_eq_nil_of_next?_eq_none none
    cases bound <;> rfl
  · rintro bound ⟨items, stack, asked⟩ after here
    cases stack with
    | nil => cases here
    | cons position stack =>
      cases here
      rfl

end Cfg

/-! ## The collection -/

namespace Collection
variable {cfg : Cfg} {known : FirstSets} {mergeCores : Bool} {P : ItemSet → Prop} {collection after : Collection}

theorem queue_eq_nil_of_next?_eq_none (h : collection.next? cfg known mergeCores = none) : collection.queue = [] := by
  obtain ⟨states, keys, queue⟩ := collection
  cases queue with
  | nil => rfl
  | cons source queue => cases h

/-- The progress that is not made yet, and the states that wait for a visit. -/
noncomputable def left (cfg : Cfg) (collection : Collection) : Nat :=
  collection.queue.length + (cfg.visitBound - collection.progress cfg)

/-- What holds between two visits. -/
structure Visited (cfg : Cfg) (known : FirstSets) (mergeCores : Bool) (collection : Collection) : Prop where
  built : collection.Built cfg known mergeCores
  settled : collection.Settled cfg fun _ => False

theorem Visited.next (wf : cfg.WellFormed) (fitsKnown : known.Fits cfg)
    (visited : collection.Visited cfg known mergeCores) (here : collection.next? cfg known mergeCores = some after) :
    after.Visited cfg known mergeCores ∧ after.left cfg < collection.left cfg := by
  obtain ⟨built, settled⟩ := visited
  obtain ⟨states, keys, queue⟩ := collection
  cases queue with
  | nil => cases here
  | cons source queue =>
    cases here
    obtain ⟨built', settled', evolves⟩ := settled_visit wf fitsKnown (built.withQueue queue) settled.pop
    refine ⟨⟨built', settled'⟩, ?_⟩
    -- what has entered the queue has made progress, and there is room for it
    have gained := evolves.progress
    have most := progress_le built'
    have same : progress cfg ⟨states, keys, source :: queue⟩ = progress cfg ⟨states, keys, queue⟩ := rfl
    simp only [left, same, List.length_cons]
    simp only at gained
    omega

theorem Carries.next (inherited : Inherited cfg known mergeCores P) (h : collection.Carries cfg known mergeCores P)
    (here : collection.next? cfg known mergeCores = some after) : after.Carries cfg known mergeCores P := by
  obtain ⟨states, keys, queue⟩ := collection
  cases queue with
  | nil => cases here
  | cons source queue =>
    cases here
    exact h.followFront inherited queue (List.append_nil _).symm

/-- **All along the states are closures of kernels that fit.** -/
theorem Underway.carries (wf : cfg.WellFormed) (h : Underway cfg mergeCores collection) :
    collection.Carries cfg cfg.firstSets mergeCores (·.Fits cfg) := by
  have inherited := Cfg.inherited_fits wf mergeCores
  have first : (cfg.firstCollection mergeCores).Carries cfg cfg.firstSets mergeCores (·.Fits cfg) :=
    Cfg.carries_firstCollection (Cfg.fits_startKernel wf)
  cases h with
  | between passes => exact passes.keeps (fun _ _ carries here => carries.next inherited here) first
  | @within _ _ _ _ queue _ _ passes followed =>
    exact (passes.keeps (fun _ _ carries here => carries.next inherited here) first).followFront inherited queue
      followed

end Collection

namespace Cfg
variable {cfg : Cfg}

/-- **The collection takes no more visits than there are states, and terminals that their kernels can gain.** -/
theorem ends_collection (wf : cfg.WellFormed) (mergeCores : Bool) : ∃ visits ≤ cfg.visitBound, ∃ last : Collection,
    Ends (Collection.next? cfg cfg.firstSets mergeCores) visits (cfg.firstCollection mergeCores) last ∧
      last.queue = [] ∧ last.states.toList = cfg.collection mergeCores := by
  obtain ⟨visits, last, enough, ends⟩ := exists_ends (Collection.left cfg)
    (fun _ _ visited here => Collection.Visited.next wf (fits_firstSets wf) visited here)
    ⟨built_firstCollection wf mergeCores, settled_firstCollection⟩
  have few : visits ≤ cfg.visitBound := by
    have first := one_le_progress_firstCollection cfg mergeCores
    have most := Collection.progress_le (built_firstCollection wf mergeCores)
    have queue : (cfg.firstCollection mergeCores).queue.length = 1 := rfl
    rw [Collection.left, queue] at enough
    omega
  refine ⟨visits, few, last, ends, Collection.queue_eq_nil_of_next?_eq_none ends.last, ?_⟩
  refine (ends.run_eq (fun bound collection => (collection.grow cfg cfg.firstSets mergeCores bound).states.toList)
    (·.states.toList) ?_ ?_ few).symm
  · rintro bound ⟨states, keys, queue⟩ none
    obtain rfl : queue = [] := Collection.queue_eq_nil_of_next?_eq_none none
    cases bound <;> rfl
  · rintro bound ⟨states, keys, queue⟩ after here
    cases queue with
    | nil => cases here
    | cons source queue =>
      cases here
      rfl

end Cfg

/-! ## Declared grammars -/

section Declared
variable {α : Type} {grammar : Grammar α}

/-- **The construction ends for every declared grammar**, whether cores are merged or not. -/
theorem Grammar.Declared.constructionEnds (declared : grammar.Declared) (mergeCores : Bool) :
    grammar.cfg.ConstructionEnds mergeCores := by
  have wf := declared.wellFormed
  refine ⟨Cfg.ends_firstSets wf, fun kernel => Cfg.closureEnds_closure wf, fun collection underway state hs => ?_,
    Cfg.ends_collection wf mergeCores⟩
  obtain ⟨i, hi⟩ := Array.mem_iff_getElem?.mp hs
  obtain ⟨items, fits⟩ := (underway.carries wf).state i state hi
  exact ⟨fits, items ▸ Cfg.closureEnds_closure wf fits⟩

end Declared

/-- Nested brackets.  Where cores are merged, the state behind a bracket leads to itself, and behind an inner bracket
there stands a bracket, not the end of the input; so it is visited again. -/
def brackets : Grammar Unit where
  terminals := [⟨"$end", .reserved, none⟩, ⟨"error", .reserved, none⟩, ⟨"(", .literal "(", none⟩,
    ⟨")", .literal ")", none⟩]
  nonTerminals := ["s"]
  productions := [⟨0, [.terminal 2, .nonTerminal 0, .terminal 3], .ofValues fun _ => (), none⟩,
    ⟨0, [], .ofValues fun _ => (), none⟩]
  start := 0
  ignored := []
  lexerOptions := {}

theorem declared_brackets : brackets.Declared :=
  ⟨_, .start (.production (.production (.nonTerminal .empty "s") 0 [.literal "(", .nonTerminal 0, .literal ")"]
    (.ofValues fun _ => ())) 0 [] (.ofValues fun _ => ())) 0, rfl⟩

theorem constructionEnds_brackets : brackets.Declared ∧ ∀ mergeCores, brackets.cfg.ConstructionEnds mergeCores :=
  ⟨declared_brackets, declared_brackets.constructionEnds⟩

end TableParsing
