import Mathlib.Logic.Equiv.Basic
import TableParsing.Proofs.Lr.Derivation
import TableParsing.Proofs.Lr.Reached

/-! # Productions under other numbers

A grammar whose productions are declared in another order is the same grammar under other numbers (`Cfg.Renumbers`).
Its words derive the same, and its cores and what may follow them are the same under the new numbers
(`viable_iff`, `valid_iff`).  Words of symbols have no numbers of productions in them, so words that lead to one state
of the one automaton lead to one state of the other (`stateAfter_congr`): the states are **twins** (`IsTwin`), which
have, allow and lead on behind the same. -/

namespace TableParsing

open Collection (State)

/-! ## Permutations of places -/

/-- A permutation of the places behind the first. -/
def shiftPlaces (σ : Equiv.Perm Nat) : Equiv.Perm Nat where
  toFun
    | 0 => 0
    | n + 1 => σ n + 1
  invFun
    | 0 => 0
    | n + 1 => σ.symm n + 1
  left_inv n := by cases n <;> simp
  right_inv n := by cases n <;> simp

/-- A permutation of a list is one of its places, which leaves the places behind the list alone. -/
theorem exists_places_of_perm {β : Type} {xs ys : List β} (h : xs.Perm ys) :
    ∃ σ : Equiv.Perm Nat, (∀ i : Nat, ys[σ i]? = xs[i]?) ∧ ∀ i, xs.length ≤ i → σ i = i := by
  induction h with
  | nil => exact ⟨Equiv.refl Nat, fun _ => rfl, fun _ _ => rfl⟩
  | cons x _ ih =>
    obtain ⟨σ, same, fixed⟩ := ih
    refine ⟨shiftPlaces σ, fun i => ?_, fun i hi => ?_⟩
    · cases i with
      | zero => rfl
      | succ i => exact same i
    · cases i with
      | zero => cases hi
      | succ i => exact congrArg (· + 1) (fixed i (Nat.le_of_succ_le_succ hi))
  | swap x y xs =>
    refine ⟨Equiv.swap 0 1, fun i => ?_, fun i hi => ?_⟩
    · match i with
      | 0 => rw [Equiv.swap_apply_left]; rfl
      | 1 => rw [Equiv.swap_apply_right]; rfl
      | i + 2 => rw [Equiv.swap_apply_of_ne_of_ne (by omega) (by omega)]; rfl
    · rw [List.length_cons, List.length_cons] at hi
      exact Equiv.swap_apply_of_ne_of_ne (by omega) (by omega)
  | trans h _ ih ih' =>
    obtain ⟨σ, same, fixed⟩ := ih
    obtain ⟨τ, same', fixed'⟩ := ih'
    refine ⟨σ.trans τ, fun i => (same' (σ i)).trans (same i), fun i hi => ?_⟩
    rw [Equiv.trans_apply, fixed i hi, fixed' i (h.length_eq ▸ hi)]

/-- The core with its production under another number. -/
def Core.renumber (σ : Equiv.Perm Nat) (core : Core) : Core := { core with production := σ core.production }

theorem Core.renumber_symm (σ : Equiv.Perm Nat) (core : Core) : (core.renumber σ).renumber σ.symm = core := by
  rw [renumber, renumber, Equiv.symm_apply_apply]

namespace Cfg

/-- Whether a grammar is another one with its productions under other numbers. -/
structure Renumbers (σ : Equiv.Perm Nat) (cfg cfg' : Cfg) : Prop where
  rules : ∀ p : Nat, cfg'.rules[σ p]? = cfg.rules[p]?
  augmented : σ cfg.augmented = cfg'.augmented
  start : cfg'.start = cfg.start

variable {σ : Equiv.Perm Nat} {cfg cfg' : Cfg} {mergeCores : Bool} {word other symbols : List Symbol} {core : Core}
  {p n t i j : Nat} {state state' : State}

namespace Renumbers
variable (h : cfg.Renumbers σ cfg')
include h

theorem symm : cfg'.Renumbers σ.symm cfg := by
  refine ⟨fun p => ?_, ?_, h.start.symm⟩
  · rw [← h.rules, Equiv.apply_symm_apply]
  · rw [← h.augmented, Equiv.symm_apply_apply]

theorem renumber_start : (Core.mk cfg.augmented 0).renumber σ = ⟨cfg'.augmented, 0⟩ := by
  rw [Core.renumber, h.augmented]

theorem symbolsOf_eq : cfg'.symbolsOf (σ p) = cfg.symbolsOf p := by
  rw [symbolsOf, symbolsOf, h.rules, h.start]

theorem resultOf?_eq : cfg'.resultOf? (σ p) = cfg.resultOf? p := by rw [resultOf?, resultOf?, h.rules]

theorem nextSymbol?_eq : cfg'.nextSymbol? (core.renumber σ) = cfg.nextSymbol? core := by
  rw [nextSymbol?, nextSymbol?, Core.renumber, h.symbolsOf_eq]

theorem behind_eq : cfg'.behind (core.renumber σ) = cfg.behind core := by
  rw [behind, behind, Core.renumber, h.symbolsOf_eq]

theorem mem_productionsOf (hp : p ∈ cfg.productionsOf n) : σ p ∈ cfg'.productionsOf n := by
  rw [Cfg.mem_productionsOf] at hp ⊢
  rw [h.resultOf?_eq, hp]

/-! ## What derives -/

theorem vanishes (hv : cfg.Vanishes symbols) : cfg'.Vanishes symbols := by
  induction hv with
  | nil => exact .nil
  | cons hp _ _ inside behind => exact .cons ((h.rules _).trans hp) inside behind

theorem starts (hs : cfg.Starts symbols t) : cfg'.Starts symbols t := by
  induction hs with
  | terminal => exact .terminal
  | inside hp _ ih => exact .inside ((h.rules _).trans hp) ih
  | behind hp gone _ ih => exact .behind ((h.rules _).trans hp) (h.vanishes gone) ih

/-! ## What words lead to -/

theorem viable (hv : cfg.Viable word core) : cfg'.Viable word (core.renumber σ) := by
  induction hv with
  | start => exact h.renumber_start ▸ .start
  | expand _ next hp ih => exact .expand ih (h.nextSymbol?_eq.trans next) (h.mem_productionsOf hp)
  | advance _ next ih => exact .advance ih (h.nextSymbol?_eq.trans next)

theorem viable_iff : cfg'.Viable word (core.renumber σ) ↔ cfg.Viable word core :=
  ⟨fun hv => core.renumber_symm σ ▸ h.symm.viable hv, h.viable⟩

/-- The cores that a word brings are the same under the new numbers. -/
theorem kernelCore (hk : cfg.KernelCore word core) : cfg'.KernelCore word (core.renumber σ) := by
  cases word with
  | nil => exact (congrArg _ hk).trans h.renumber_start
  | cons symbol word =>
    obtain ⟨old, viable, next, rfl⟩ := hk
    exact ⟨old.renumber σ, h.viable viable, h.nextSymbol?_eq.trans next, rfl⟩

theorem kernelCore_iff : cfg'.KernelCore word (core.renumber σ) ↔ cfg.KernelCore word core :=
  ⟨fun hk => core.renumber_symm σ ▸ h.symm.kernelCore hk, h.kernelCore⟩

variable (wf : cfg.WellFormed) (wf' : cfg'.WellFormed)
include wf wf'

theorem valid (hv : cfg.Valid word core t) : cfg'.Valid word (core.renumber σ) t := by
  induction hv with
  | start => exact h.renumber_start ▸ .start
  | first viable next hp ht =>
    refine .first (h.viable viable) (h.nextSymbol?_eq.trans next) (h.mem_productionsOf hp) ?_
    rw [h.behind_eq, contains_firstOf_iff wf']
    exact h.starts ((contains_firstOf_iff wf).mp ht)
  | pass _ next hp nullable ih =>
    refine .pass ih (h.nextSymbol?_eq.trans next) (h.mem_productionsOf hp) ?_
    rw [h.behind_eq, nullable_firstOf_iff wf']
    exact h.vanishes ((nullable_firstOf_iff wf).mp nullable)
  | advance _ next ih => exact .advance ih (h.nextSymbol?_eq.trans next)

theorem valid_iff : cfg'.Valid word (core.renumber σ) t ↔ cfg.Valid word core t :=
  ⟨fun hv => core.renumber_symm σ ▸ h.symm.valid wf' wf hv, h.valid wf wf'⟩

theorem kernelItem (hk : cfg.KernelItem word core t) : cfg'.KernelItem word (core.renumber σ) t := by
  cases word with
  | nil =>
    obtain ⟨rfl, rfl⟩ := hk
    exact ⟨h.renumber_start, rfl⟩
  | cons symbol word =>
    obtain ⟨old, valid, next, rfl⟩ := hk
    exact ⟨old.renumber σ, h.valid wf wf' valid, h.nextSymbol?_eq.trans next, rfl⟩

theorem kernelItem_iff : cfg'.KernelItem word (core.renumber σ) t ↔ cfg.KernelItem word core t :=
  ⟨fun hk => core.renumber_symm σ ▸ h.symm.kernelItem wf' wf hk, h.kernelItem wf wf'⟩

theorem alike (alike : cfg'.Alike mergeCores word other) : cfg.Alike mergeCores word other := by
  refine ⟨fun core => ?_, fun separate core t => ?_⟩
  · rw [← h.kernelCore_iff, alike.cores, h.kernelCore_iff]
  · rw [← h.kernelItem_iff wf wf', alike.items separate, h.kernelItem_iff wf wf']

/-- **Words that lead to one state lead to one state under the new numbers.** -/
theorem stateAfter_congr (after : stateAfter (cfg.collection mergeCores) word = some i)
    (after' : stateAfter (cfg'.collection mergeCores) word = some j) :
    stateAfter (cfg.collection mergeCores) other = some i ↔ stateAfter (cfg'.collection mergeCores) other = some j := by
  rw [stateAfter_eq_iff wf after, stateAfter_eq_iff wf' after']
  exact ⟨h.symm.alike wf' wf, h.alike wf wf'⟩

end Renumbers

/-! ## Twins -/

/-- Whether a state has, allows and leads on behind the same as another one, under other numbers. -/
structure IsTwin (σ : Equiv.Perm Nat) (state state' : State) : Prop where
  has_iff : ∀ core, state'.items.Has (core.renumber σ) ↔ state.items.Has core
  allows_iff : ∀ core t, state'.items.Allows (core.renumber σ) t ↔ state.items.Allows core t
  leads_iff : ∀ symbol, (∃ target, state'.transitions.lookup symbol = some target) ↔
    ∃ target, state.transitions.lookup symbol = some target

theorem IsTwin.symm (twin : IsTwin σ state state') : IsTwin σ.symm state' state where
  has_iff core := by rw [← twin.has_iff, Core.renumber, Core.renumber, Equiv.apply_symm_apply]
  allows_iff core t := by rw [← twin.allows_iff, Core.renumber, Core.renumber, Equiv.apply_symm_apply]
  leads_iff symbol := (twin.leads_iff symbol).symm

/-- **Every state has a twin under the new numbers.** -/
theorem Renumbers.exists_twin (h : cfg.Renumbers σ cfg') (wf : cfg.WellFormed) (wf' : cfg'.WellFormed)
    (hs : (cfg.collection mergeCores)[i]? = some state) :
    ∃ (j : Nat) (state' : State), (cfg'.collection mergeCores)[j]? = some state' ∧ IsTwin σ state state' := by
  have automaton := isAutomaton_collection wf mergeCores
  have automaton' := isAutomaton_collection wf' mergeCores
  obtain ⟨word, after⟩ := exists_stateAfter wf hs
  obtain ⟨state₀, hs₀, follows⟩ := automaton.follows after
  cases hs.symm.trans hs₀
  obtain ⟨core, hc⟩ := automaton.exists_core hs
  obtain ⟨j, state', after', hs', follows'⟩ :=
    automaton'.exists_state (h.viable ((follows.spells core).mp hc).viable)
  refine ⟨j, state', hs', fun core => ?_, fun core t => ?_, fun symbol => ?_⟩
  · rw [follows'.has_iff, follows.has_iff, h.viable_iff]
  · rw [allows_iff_exists_valid wf' hs', allows_iff_exists_valid wf hs]
    exact exists_congr fun other => and_congr (h.stateAfter_congr wf wf' after after').symm (h.valid_iff wf wf')
  · rw [automaton'.exists_lookup_iff hs' follows'.spells, automaton.exists_lookup_iff hs follows.spells]
    constructor
    · rintro ⟨core, viable, next⟩
      exact ⟨_, h.symm.viable viable, h.symm.nextSymbol?_eq.trans next⟩
    · rintro ⟨core, viable, next⟩
      exact ⟨_, h.viable viable, h.nextSymbol?_eq.trans next⟩

end Cfg
end TableParsing
