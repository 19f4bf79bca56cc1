import TableParsing.Proofs.Lr.Exactness
import TableParsing.Proofs.Lr.Foresight

/-! # What may come behind a word

A terminal **may follow** a word if an item that is viable for the word has it in front of it: it starts what stands
behind the dot, or that can vanish and the terminal is valid behind the item (`Cfg.MayFollow`).  Whatever an automaton
reduces in front of the terminal, also where merged states allow what is not valid for the word, a terminal that may
follow what the word is reduced to may follow the word (`Reduces.mayFollow`).  So reductions come to where the terminal
is taken **exactly if it may follow** (`comesTo_iff_mayFollow`). -/

namespace TableParsing
namespace Cfg

/-- Whether a terminal may come behind a word of symbols, the latest first. -/
def MayFollow (cfg : Cfg) (word : List Symbol) (t : Nat) : Prop :=
  ∃ core, cfg.Viable word core ∧
    (cfg.Starts (cfg.ahead core) t ∨ cfg.Vanishes (cfg.ahead core) ∧ cfg.Valid word core t)

variable {cfg : Cfg} {word next : List Symbol} {core : Core} {rule : Rule} {n p t : Nat}

/-! ## In front of kernels -/

/-- What is in front of an item is in front of one that the latest symbol brings. -/
theorem Viable.exists_kernelCore (h : cfg.Viable word core) (starts : cfg.Starts (cfg.ahead core) t) :
    ∃ kernel, cfg.KernelCore word kernel ∧ cfg.Starts (cfg.ahead kernel) t := by
  induction h with
  | start => exact ⟨_, rfl, starts⟩
  | expand _ next hp ih =>
    obtain ⟨rule, hr, rfl⟩ := resultOf?_eq_some_iff.mp (mem_productionsOf.mp hp)
    rw [ahead_zero hr] at starts
    exact ih (ahead_of_next next ▸ .inside hr starts)
  | advance h next => exact ⟨_, ⟨_, h, next, rfl⟩, starts⟩

theorem Valid.exists_kernelCore (wf : cfg.WellFormed) (h : cfg.Valid word core t)
    (vanishes : cfg.Vanishes (cfg.ahead core)) : ∃ kernel, cfg.KernelCore word kernel ∧
      (cfg.Starts (cfg.ahead kernel) t ∨ cfg.Vanishes (cfg.ahead kernel) ∧ cfg.KernelItem word kernel t) := by
  induction h with
  | start => exact ⟨_, rfl, .inr ⟨vanishes, rfl, rfl⟩⟩
  | first h next hp ht =>
    obtain ⟨rule, hr, rfl⟩ := resultOf?_eq_some_iff.mp (mem_productionsOf.mp hp)
    rw [ahead_zero hr] at vanishes
    -- the production vanishes, so what comes behind its result is in front of the item that asks for it
    have starts := Starts.behind hr vanishes ((contains_firstOf_iff wf).mp ht)
    obtain ⟨kernel, brought, starts⟩ := h.exists_kernelCore (ahead_of_next next ▸ starts)
    exact ⟨kernel, brought, .inl starts⟩
  | pass _ next hp nullable ih =>
    obtain ⟨rule, hr, rfl⟩ := resultOf?_eq_some_iff.mp (mem_productionsOf.mp hp)
    rw [ahead_zero hr] at vanishes
    exact ih (ahead_of_next next ▸ .cons hr vanishes ((nullable_firstOf_iff wf).mp nullable))
  | advance h next => exact ⟨_, ⟨_, h.viable, next, rfl⟩, .inr ⟨vanishes, _, h, next, rfl⟩⟩

theorem MayFollow.exists_kernelCore (wf : cfg.WellFormed) (h : cfg.MayFollow word t) :
    ∃ kernel, cfg.KernelCore word kernel ∧
      (cfg.Starts (cfg.ahead kernel) t ∨ cfg.Vanishes (cfg.ahead kernel) ∧ cfg.KernelItem word kernel t) := by
  obtain ⟨core, viable, starts | ⟨vanishes, valid⟩⟩ := h
  · obtain ⟨kernel, brought, starts⟩ := viable.exists_kernelCore starts
    exact ⟨kernel, brought, .inl starts⟩
  · exact valid.exists_kernelCore wf vanishes

/-- Behind a non-terminal there may follow what its productions are valid with. -/
theorem MayFollow.valid (wf : cfg.WellFormed) (hp : cfg.rules[p]? = some rule)
    (h : cfg.MayFollow (.nonTerminal rule.result :: word) t) : cfg.Valid word ⟨p, 0⟩ t := by
  obtain ⟨kernel, ⟨old, viable, next, rfl⟩, ahead⟩ := h.exists_kernelCore wf
  rw [ahead_advance] at ahead
  rcases ahead with starts | ⟨vanishes, other, valid, next', same⟩
  · exact viable.valid_of_starts wf hp next starts
  · have same : other = old := by
      obtain ⟨q, dot⟩ := other
      obtain ⟨q', dot'⟩ := old
      cases same
      rfl
    subst same
    exact valid.valid_of_vanishes wf hp next vanishes

/-! ## Reductions -/

section Automaton
variable {states : List Collection.State} (wf : cfg.WellFormed) (automaton : cfg.IsAutomaton states)
include automaton

/-- A terminal other than the end that is taken behind a word may follow it. -/
theorem Acts.mayFollow (acts : cfg.Acts states t word) (inside : t ≠ endTerminal) : cfg.MayFollow word t := by
  obtain ⟨i, state, after, hs, ⟨target, leads⟩ | ⟨atEnd, -⟩⟩ := acts
  · obtain ⟨state', hs', follows⟩ := automaton.follows after
    cases hs.symm.trans hs'
    obtain ⟨core, viable, next⟩ := (automaton.exists_lookup_iff hs follows.spells).mp ⟨target, leads⟩
    exact ⟨core, viable, .inl (ahead_of_next next ▸ .terminal)⟩
  · exact absurd atEnd inside

include wf

/-- **What may follow a reduced word may follow the word.** -/
theorem Reduces.mayFollow (reduces : cfg.Reduces states t word next) (h : cfg.MayFollow next t) :
    cfg.MayFollow word t := by
  obtain @⟨i, p, state, rule, after, hs, hp, allows⟩ := reduces
  obtain ⟨state', hs', follows⟩ := automaton.follows after
  cases hs.symm.trans hs'
  have viable := (follows.has_iff _).mp allows.has
  obtain ⟨base, split, -⟩ := viable.exists_base
  rw [take_symbolsOf hp] at split
  rw [split, List.drop_left' List.length_reverse] at h
  have whole : cfg.ahead ⟨p, 0⟩ = rule.symbols ++ [] := by rw [ahead_zero hp, List.append_nil]
  have valid := (h.valid wf hp).over whole
  rw [Core.over, Nat.zero_add] at valid
  rw [split]
  exact ⟨_, valid.viable, .inr ⟨ahead_length hp ▸ .nil, valid⟩⟩

/-- **Reductions come to where a terminal is taken exactly if it may follow.** -/
theorem comesTo_iff_mayFollow (inside : t ≠ endTerminal) : cfg.ComesTo states t word ↔ cfg.MayFollow word t := by
  constructor
  · rintro ⟨last, reduces, acts⟩
    induction reduces using Relation.ReflTransGen.head_induction_on with
    | refl => exact acts.mayFollow automaton inside
    | head step _ ih => exact step.mayFollow wf automaton ih
  · rintro ⟨core, viable, starts | ⟨vanishes, valid⟩⟩
    · exact viable.comesTo wf automaton starts rfl
    · exact valid.comesTo wf automaton vanishes

end Automaton

/-- A canonical state reduces only in front of what may follow. -/
theorem Reduces.mayFollow_of_canonical (wf : cfg.WellFormed)
    (reduces : cfg.Reduces (cfg.collection false) t word next) :
    cfg.MayFollow word t := by
  obtain @⟨i, p, state, rule, after, hs, hp, allows⟩ := reduces
  have valid := (allows_iff_valid wf after hs).mp allows
  exact ⟨_, valid.viable, .inr ⟨ahead_length hp ▸ .nil, valid⟩⟩

end Cfg
end TableParsing
