import TableParsing.Proofs.Lr.Closure

/-! # Closures allow nothing without a reason

A closure allows a terminal behind a production for one of three reasons: the kernel does, or an item that asks for the
production has the terminal behind the symbol that it asks for, or what stands there can be empty and the item itself
allows the terminal (`Cfg.Granted`).  A visit inserts nothing else, so together with what a closure answers **this says
exactly which terminals it allows** (`allows_closure_iff`). -/

namespace TableParsing
namespace Cfg

variable {cfg : Cfg} {known : FirstSets} {kernel other : ItemSet} {core : Core} {n p t : Nat}

/-- What stands behind the symbol that the dot is in front of. -/
def behind (cfg : Cfg) (core : Core) : List Symbol := (cfg.symbolsOf core.production).drop (core.dot + 1)

/-- The terminals that closing a kernel allows, with the reasons. -/
inductive Granted (cfg : Cfg) (known : FirstSets) (kernel : ItemSet) : Core → Nat → Prop
  | kernel {core : Core} {t : Nat} (h : kernel.Allows core t) : Granted cfg known kernel core t
  | first {core : Core} {n p t : Nat} (h : cfg.Reached kernel core)
      (next : cfg.nextSymbol? core = some (.nonTerminal n)) (hp : p ∈ cfg.productionsOf n)
      (ht : (cfg.firstOf known (cfg.behind core)).1.contains t) : Granted cfg known kernel ⟨p, 0⟩ t
  | pass {core : Core} {n p t : Nat} (h : Granted cfg known kernel core t)
      (next : cfg.nextSymbol? core = some (.nonTerminal n)) (hp : p ∈ cfg.productionsOf n)
      (nullable : (cfg.firstOf known (cfg.behind core)).2) : Granted cfg known kernel ⟨p, 0⟩ t

theorem contains_following {item : Item} : (cfg.following known item).contains t ↔
    (cfg.firstOf known (cfg.behind item.core)).1.contains t ∨
      (cfg.firstOf known (cfg.behind item.core)).2 ∧ item.lookahead.contains t := by
  rw [following, ← behind]
  simp only
  split
  · rename_i nullable
    rw [TerminalSet.contains_union, and_iff_right nullable]
  · rename_i visible
    rw [iff_false_intro visible, false_and, or_false]

end Cfg

/-! ## Visits -/

namespace Expansion
variable {cfg : Cfg} {known : FirstSets} {kernel : ItemSet} {run : Expansion} {lookahead : TerminalSet} {n p : Nat}

/-- Whether the items are reached from the kernel, and allow what closing it allows. -/
structure Justified (cfg : Cfg) (known : FirstSets) (kernel : ItemSet) (items : ItemSet) : Prop where
  reached : ∀ core, items.Has core → cfg.Reached kernel core
  granted : ∀ core t, items.Allows core t → cfg.Granted known kernel core t

theorem Justified.insert (h : Justified cfg known kernel run.items) (reached : cfg.Reached kernel ⟨p, 0⟩)
    (granted : ∀ t, lookahead.contains t → cfg.Granted known kernel ⟨p, 0⟩ t) :
    Justified cfg known kernel (run.insert lookahead p).items := by
  by_cases hc : run.items.covers ⟨p, 0⟩ lookahead
  · rwa [insert_of_covers hc]
  rw [items_insert hc]
  constructor
  · intro core has
    rcases run.items.has_insert.mp has with has | rfl
    · exact h.reached core has
    · exact reached
  · intro core t allows
    rcases run.items.allows_insert.mp allows with allows | ⟨rfl, ht⟩
    · exact h.granted core t allows
    · exact granted t ht

theorem Justified.insertAll {ps : List Nat} (h : Justified cfg known kernel run.items)
    (reached : ∀ p ∈ ps, cfg.Reached kernel ⟨p, 0⟩)
    (granted : ∀ p ∈ ps, ∀ t, lookahead.contains t → cfg.Granted known kernel ⟨p, 0⟩ t) :
    Justified cfg known kernel (ps.foldl (Expansion.insert lookahead) run).items := by
  induction ps generalizing run with
  | nil => exact h
  | cons p ps ih =>
    exact ih (h.insert (reached p List.mem_cons_self) (granted p List.mem_cons_self))
      (fun q hq => reached q (List.mem_cons_of_mem _ hq)) fun q hq => granted q (List.mem_cons_of_mem _ hq)

/-- **A visit inserts what is granted.** -/
theorem Justified.visit (h : Justified cfg known kernel run.items) (position : Nat) :
    Justified cfg known kernel (cfg.visit known position run).items := by
  rw [Cfg.visit]
  cases hrequest : (run.items.item? position).bind (cfg.request? known) with
  | none => exact h
  | some request =>
    obtain ⟨n, lookahead⟩ := request
    obtain ⟨item, hitem, hrequest⟩ := Option.bind_eq_some_iff.mp hrequest
    obtain ⟨next, rfl⟩ := Cfg.request?_eq_some_iff.mp hrequest
    have hm : item ∈ run.items.items := run.items.mem_items_iff.mpr ⟨position, run.items.item?_eq_some_iff.mp hitem⟩
    have reached := h.reached _ (run.items.has_iff.mpr ⟨item, hm, rfl⟩)
    simp only [Cfg.ask]
    split
    · exact h
    · rw [foldl_insert_note]
      refine h.insertAll (fun p hp => .expand reached next hp) fun p hp t ht => ?_
      rcases Cfg.contains_following.mp ht with ht | ⟨nullable, ht⟩
      · exact .first reached next hp ht
      · exact .pass (h.granted _ t (run.items.allows_of_mem hm ht)) next hp nullable

theorem Justified.visitAll {visits : Nat} (h : Justified cfg known kernel run.items) :
    Justified cfg known kernel (cfg.visitAll known visits run) := by
  induction visits generalizing run with
  | zero => exact h
  | succ visits ih =>
    obtain ⟨items, stack, asked⟩ := run
    cases stack with
    | nil => exact h
    | cons position stack =>
      have popped : Justified cfg known kernel (Expansion.mk items stack asked).items := h
      exact ih (popped.visit position)

end Expansion

/-! ## The closure -/

namespace Cfg
variable {cfg : Cfg} {known : FirstSets} {kernel set : ItemSet} {core : Core} {t : Nat}

/-- A closed set allows what is granted. -/
theorem IsClosure.allows_of_granted (closure : cfg.IsClosure known kernel set) (h : cfg.Granted known kernel core t) :
    set.Allows core t := by
  have answered {old : Core} {n p : Nat} (has : set.Has old) (next : cfg.nextSymbol? old = some (.nonTerminal n))
      (hp : p ∈ cfg.productionsOf n) : ∃ item ∈ set.items, item.core = old ∧
        ∀ t, (cfg.following known item).contains t → set.Allows ⟨p, 0⟩ t := by
    obtain ⟨item, hm, rfl⟩ := set.has_iff.mp has
    exact ⟨item, hm, rfl, (set.covers_iff.mp (closure.answered item hm _ next p hp)).2⟩
  induction h with
  | kernel h => exact closure.kernel_le.allows _ _ h
  | first h next hp ht =>
    obtain ⟨item, -, rfl, allows⟩ := answered (closure.has_iff.mpr h) next hp
    exact allows _ (contains_following.mpr (.inl ht))
  | pass _ next hp nullable ih =>
    obtain ⟨item, hm, rfl, allows⟩ := answered ih.has next hp
    exact allows _ (contains_following.mpr (.inr ⟨nullable, (set.allows_iff_of_mem hm).mp ih⟩))

/-- **A closure allows exactly what is granted.** -/
theorem allows_closure_iff (wf : cfg.WellFormed) (fitsKnown : known.Fits cfg) (fits : kernel.Fits cfg) :
    (cfg.closure known kernel).Allows core t ↔ cfg.Granted known kernel core t := by
  refine ⟨fun h => ?_, (isClosure_closure wf fitsKnown fits).allows_of_granted⟩
  have closed : Expansion.Justified cfg known kernel (cfg.closure known kernel) :=
    Expansion.Justified.visitAll ⟨fun _ h => .kernel h, fun _ _ h => .kernel h⟩
  exact closed.granted core t h

end Cfg
end TableParsing
