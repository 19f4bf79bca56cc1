import TableParsing.Proofs.Lr.Collection
import TableParsing.Proofs.Lr.Granted

/-! # Words that lead to items

What an automaton is in after a word of symbols does not depend on how it was made: a core is **viable** for the word if
it is reached by moving dots over the symbols of the word and by asking for productions, and a terminal is **valid**
behind it if it may follow along the way (`Cfg.Viable`, `Cfg.Valid`).  Words are written as stacks are, the latest
symbol first.

In an automaton every word with a viable core leads to a state (`IsAutomaton.exists_state`), the state's cores are
those that are viable for the word, and it allows at least what is valid (`IsAutomaton.follows`). -/

namespace TableParsing
namespace Cfg

/-- The cores that a word of symbols, the latest first, leads to. -/
inductive Viable (cfg : Cfg) : List Symbol → Core → Prop
  | start : Viable cfg [] ⟨cfg.augmented, 0⟩
  | expand {word : List Symbol} {core : Core} {n p : Nat} (h : Viable cfg word core)
      (next : cfg.nextSymbol? core = some (.nonTerminal n)) (hp : p ∈ cfg.productionsOf n) : Viable cfg word ⟨p, 0⟩
  | advance {word : List Symbol} {core : Core} {symbol : Symbol} (h : Viable cfg word core)
      (next : cfg.nextSymbol? core = some symbol) : Viable cfg (symbol :: word) core.advance

/-- The terminals that may follow a production whose core a word leads to. -/
inductive Valid (cfg : Cfg) : List Symbol → Core → Nat → Prop
  | start : Valid cfg [] ⟨cfg.augmented, 0⟩ endTerminal
  | first {word : List Symbol} {core : Core} {n p t : Nat} (h : Viable cfg word core)
      (next : cfg.nextSymbol? core = some (.nonTerminal n)) (hp : p ∈ cfg.productionsOf n)
      (ht : (cfg.firstOf cfg.firstSets (cfg.behind core)).1.contains t) : Valid cfg word ⟨p, 0⟩ t
  | pass {word : List Symbol} {core : Core} {n p t : Nat} (h : Valid cfg word core t)
      (next : cfg.nextSymbol? core = some (.nonTerminal n)) (hp : p ∈ cfg.productionsOf n)
      (nullable : (cfg.firstOf cfg.firstSets (cfg.behind core)).2) : Valid cfg word ⟨p, 0⟩ t
  | advance {word : List Symbol} {core : Core} {symbol : Symbol} {t : Nat} (h : Valid cfg word core t)
      (next : cfg.nextSymbol? core = some symbol) : Valid cfg (symbol :: word) core.advance t

/-- The cores that the latest symbol of a word brings, or the beginning if there is no symbol. -/
def KernelCore (cfg : Cfg) : List Symbol → Core → Prop
  | [], core => core = ⟨cfg.augmented, 0⟩
  | symbol :: word, core => ∃ old, cfg.Viable word old ∧ cfg.nextSymbol? old = some symbol ∧ old.advance = core

/-- The same with the terminals that may follow. -/
def KernelItem (cfg : Cfg) : List Symbol → Core → Nat → Prop
  | [], core, t => core = ⟨cfg.augmented, 0⟩ ∧ t = endTerminal
  | symbol :: word, core, t =>
    ∃ old, cfg.Valid word old t ∧ cfg.nextSymbol? old = some symbol ∧ old.advance = core

/-- Whether a kernel has the cores that a word brings. -/
def Spells (cfg : Cfg) (word : List Symbol) (kernel : ItemSet) : Prop :=
  ∀ core, kernel.Has core ↔ cfg.KernelCore word core

variable {cfg : Cfg} {word : List Symbol} {core : Core} {kernel set : ItemSet} {t : Nat}

theorem KernelCore.viable (h : cfg.KernelCore word core) : cfg.Viable word core := by
  cases word with
  | nil => exact h ▸ .start
  | cons symbol word =>
    obtain ⟨old, hold, next, rfl⟩ := h
    exact .advance hold next

theorem KernelItem.valid (h : cfg.KernelItem word core t) : cfg.Valid word core t := by
  cases word with
  | nil =>
    obtain ⟨rfl, rfl⟩ := h
    exact .start
  | cons symbol word =>
    obtain ⟨old, hold, next, rfl⟩ := h
    exact .advance hold next

theorem Valid.viable (h : cfg.Valid word core t) : cfg.Viable word core := by
  induction h with
  | start => exact .start
  | first h next hp _ => exact .expand h next hp
  | pass _ next hp _ ih => exact .expand ih next hp
  | advance _ next ih => exact .advance ih next

theorem KernelItem.kernelCore (h : cfg.KernelItem word core t) : cfg.KernelCore word core := by
  cases word with
  | nil => exact h.1
  | cons symbol word =>
    obtain ⟨old, hold, next, rfl⟩ := h
    exact ⟨old, hold.viable, next, rfl⟩

theorem Spells.congr {other : ItemSet} (h : cfg.Spells word kernel) (same : ∀ core, other.Has core ↔ kernel.Has core) :
    cfg.Spells word other := fun core => (same core).trans (h core)

/-! ## Closures -/

/-- What closing the kernel of a word leads to is viable for the word. -/
theorem Spells.reached_iff (h : cfg.Spells word kernel) : cfg.Reached kernel core ↔ cfg.Viable word core := by
  constructor
  · intro reached
    induction reached with
    | kernel hc => exact ((h _).mp hc).viable
    | expand _ next hp ih => exact .expand ih next hp
  · intro viable
    induction viable with
    | start => exact .kernel ((h _).mpr rfl)
    | expand _ next hp ih => exact .expand (ih h) next hp
    | advance hold next _ => exact .kernel ((h _).mpr ⟨_, hold, next, rfl⟩)

/-- Closing the kernel of a word allows what is valid, if the kernel does. -/
theorem Spells.granted (h : cfg.Spells word kernel)
    (allows : ∀ core t, cfg.KernelItem word core t → kernel.Allows core t)
    (valid : cfg.Valid word core t) : cfg.Granted cfg.firstSets kernel core t := by
  induction valid with
  | start => exact .kernel (allows _ _ ⟨rfl, rfl⟩)
  | first viable next hp ht => exact .first (h.reached_iff.mpr viable) next hp ht
  | pass _ next hp nullable ih => exact .pass (ih h allows) next hp nullable
  | advance hold next _ => exact .kernel (allows _ _ ⟨_, hold, next, rfl⟩)

/-! ## Automata -/

/-- The state that a word of symbols, the latest first, leads to. -/
def stateAfter (states : List Collection.State) : List Symbol → Option Nat
  | [] => some 0
  | symbol :: word =>
    (stateAfter states word).bind fun i => states[i]?.bind fun state => state.transitions.lookup symbol

/-- What the state after a word has and at least allows. -/
structure Follows (cfg : Cfg) (word : List Symbol) (state : Collection.State) : Prop where
  spells : cfg.Spells word state.kernel
  kernel_allows : ∀ core t, cfg.KernelItem word core t → state.kernel.Allows core t
  has_iff : ∀ core, state.items.Has core ↔ cfg.Viable word core
  allows : ∀ core t, cfg.Valid word core t → state.items.Allows core t

namespace IsAutomaton
variable {states : List Collection.State} {state : Collection.State} {i : Nat} (automaton : cfg.IsAutomaton states)
include automaton

theorem follows_of_kernel (hs : states[i]? = some state) (spells : cfg.Spells word state.kernel)
    (allows : ∀ core t, cfg.KernelItem word core t → state.kernel.Allows core t) : cfg.Follows word state where
  spells := spells
  kernel_allows := allows
  has_iff _ := (automaton.sound i state hs).isClosure.has_iff.trans spells.reached_iff
  allows _ _ valid := (automaton.sound i state hs).isClosure.allows_of_granted (spells.granted allows valid)

theorem covers_advance {symbol : Symbol} {target : Nat} {next : Collection.State} {item : Item}
    (hs : states[i]? = some state) (leads : state.transitions.lookup symbol = some target)
    (hnext : states[target]? = some next) (hm : item ∈ state.items.items)
    (hsymbol : cfg.nextSymbol? item.core = some symbol) : next.kernel.covers item.core.advance item.lookahead := by
  obtain ⟨target', next', leads', hnext', covers⟩ := automaton.leads i state hs item hm symbol hsymbol
  cases leads.symm.trans leads'
  cases hnext.symm.trans hnext'
  exact covers

/-- Behind a symbol there are the cores that have moved over it. -/
theorem spells_cons {symbol : Symbol} {target : Nat} (hs : states[i]? = some state)
    (spells : cfg.Spells word state.kernel) (leads : state.transitions.lookup symbol = some target) :
    ∃ next, states[target]? = some next ∧ cfg.Spells (symbol :: word) next.kernel := by
  obtain ⟨next, hnext, cores⟩ := automaton.advances i state hs symbol target leads
  have viable (core : Core) : state.items.Has core ↔ cfg.Viable word core :=
    (automaton.sound i state hs).isClosure.has_iff.trans spells.reached_iff
  refine ⟨next, hnext, fun core => ⟨fun hc => ?_, ?_⟩⟩
  · obtain ⟨old, hold, hsymbol, advance⟩ := cores core hc
    exact ⟨old, (viable old).mp hold, hsymbol, advance⟩
  · rintro ⟨old, hold, hsymbol, rfl⟩
    obtain ⟨item, hm, rfl⟩ := state.items.has_iff.mp ((viable old).mpr hold)
    exact (next.kernel.covers_iff.mp (automaton.covers_advance hs leads hnext hm hsymbol)).1

/-- A symbol leads on exactly if it stands behind the dot of a viable core. -/
theorem exists_lookup_iff {symbol : Symbol} (hs : states[i]? = some state) (spells : cfg.Spells word state.kernel) :
    (∃ target, state.transitions.lookup symbol = some target) ↔
      ∃ core, cfg.Viable word core ∧ cfg.nextSymbol? core = some symbol := by
  constructor
  · rintro ⟨target, leads⟩
    obtain ⟨next, hnext, spells'⟩ := automaton.spells_cons hs spells leads
    obtain ⟨core, hc⟩ := automaton.exists_core hnext
    obtain ⟨old, viable, hsymbol, -⟩ := (spells' core).mp hc
    exact ⟨old, viable, hsymbol⟩
  · rintro ⟨core, viable, hsymbol⟩
    have has := (automaton.sound i state hs).isClosure.has_iff.mpr (spells.reached_iff.mpr viable)
    obtain ⟨item, hm, rfl⟩ := state.items.has_iff.mp has
    obtain ⟨target, -, leads, -⟩ := automaton.leads i state hs item hm symbol hsymbol
    exact ⟨target, leads⟩

/-- A terminal that leads on is one of the grammar. -/
theorem lt_of_lookup (wf : cfg.WellFormed) {target : Nat} (hs : states[i]? = some state)
    (leads : state.transitions.lookup (.terminal t) = some target) : t < cfg.terminalCount := by
  obtain ⟨next, hnext, cores⟩ := automaton.advances i state hs _ _ leads
  obtain ⟨core, hc⟩ := automaton.exists_core hnext
  obtain ⟨old, -, hsymbol, -⟩ := cores core hc
  exact wf.lt_of_mem_symbolsOf (List.mem_of_getElem? hsymbol)

/-- Behind a symbol there is what has moved over it, with what could follow. -/
theorem follows_cons {symbol : Symbol} {target : Nat} (hs : states[i]? = some state) (h : cfg.Follows word state)
    (leads : state.transitions.lookup symbol = some target) :
    ∃ next, states[target]? = some next ∧ cfg.Follows (symbol :: word) next := by
  obtain ⟨next, hnext, spells⟩ := automaton.spells_cons hs h.spells leads
  refine ⟨next, hnext, automaton.follows_of_kernel hnext spells ?_⟩
  rintro core t ⟨old, hold, hsymbol, rfl⟩
  obtain ⟨item, hm, rfl, ht⟩ := h.allows old t hold
  exact (next.kernel.covers_iff.mp (automaton.covers_advance hs leads hnext hm hsymbol)).2 t ht

/-- **The state after a word has the viable cores, and allows what is valid.** -/
theorem follows (after : stateAfter states word = some i) :
    ∃ state, states[i]? = some state ∧ cfg.Follows word state := by
  induction word generalizing i with
  | nil =>
    cases after
    obtain ⟨state, hs, cores, allowed⟩ := automaton.start
    refine ⟨state, hs, automaton.follows_of_kernel hs cores ?_⟩
    rintro core t ⟨rfl, rfl⟩
    exact allowed
  | cons symbol word ih =>
    obtain ⟨j, hj, after⟩ := Option.bind_eq_some_iff.mp after
    obtain ⟨state, hs, leads⟩ := Option.bind_eq_some_iff.mp after
    obtain ⟨state', hs', h⟩ := ih hj
    cases hs.symm.trans hs'
    exact automaton.follows_cons hs h leads

/-- **A word with a viable core leads to a state.** -/
theorem exists_state (h : cfg.Viable word core) :
    ∃ i state, stateAfter states word = some i ∧ states[i]? = some state ∧ cfg.Follows word state := by
  have found : ∃ i, stateAfter states word = some i := by
    induction h with
    | start => exact ⟨0, rfl⟩
    | expand _ _ _ ih => exact ih
    | advance viable next ih =>
      obtain ⟨i, after⟩ := ih
      obtain ⟨state, hs, h⟩ := automaton.follows after
      obtain ⟨target, leads⟩ := (automaton.exists_lookup_iff hs h.spells).mpr ⟨_, viable, next⟩
      refine ⟨target, ?_⟩
      rw [stateAfter, after, Option.bind_some, hs, Option.bind_some, leads]
  obtain ⟨i, after⟩ := found
  obtain ⟨state, hs, h⟩ := automaton.follows after
  exact ⟨i, state, after, hs, h⟩

end IsAutomaton
end Cfg
end TableParsing
