import TableParsing.Lr.Collection
import TableParsing.Proofs.Lr.Closure

/-! # What symbols lead to

The transitions of a set of items are looked up by their symbols, each of which stands there once.  Behind a
symbol is the **kernel** that it leads to (`IsKernel`): the items with the symbol behind the dot, with the
dot moved on, and with the same lookaheads. -/

namespace TableParsing

/-! ## Looking up symbols -/

section Lookup
variable {β : Type} {pairs : List (Symbol × β)} {symbol other : Symbol} {b : β}

theorem mem_of_lookup_eq_some (h : pairs.lookup symbol = some b) : (symbol, b) ∈ pairs := by
  obtain ⟨front, back, rfl, -⟩ := List.lookup_eq_some_iff.mp h
  exact List.mem_append_right _ List.mem_cons_self

theorem lookup_eq_some_of_mem (nodup : (pairs.map Prod.fst).Nodup) (h : (symbol, b) ∈ pairs) :
    pairs.lookup symbol = some b := by
  obtain ⟨front, back, rfl⟩ := List.append_of_mem h
  rw [List.map_append, List.map_cons, List.nodup_append] at nodup
  refine List.lookup_eq_some_iff.mpr ⟨front, back, rfl, fun p hp => ?_⟩
  have := nodup.2.2 p.1 (List.mem_map_of_mem hp) symbol List.mem_cons_self
  exact bne_iff_ne.mpr this.symm

theorem lookup_cons_if : ((symbol, b) :: pairs).lookup other =
    if other = symbol then some b else pairs.lookup other := by
  rw [List.lookup_cons]
  by_cases h : other = symbol
  · subst h
    simp
  · rw [beq_eq_false_iff_ne.mpr h, if_neg h]

/-- The pairs with what stands behind a symbol replaced by what `f` makes of it. -/
def alter (symbol : Symbol) (f : Option β → β) : List (Symbol × β) → List (Symbol × β)
  | [] => [(symbol, f none)]
  | (s, old) :: rest => if s = symbol then (s, f (some old)) :: rest else (s, old) :: alter symbol f rest

variable {f : Option β → β}

theorem lookup_alter : (alter symbol f pairs).lookup other =
    if other = symbol then some (f (pairs.lookup symbol)) else pairs.lookup other := by
  induction pairs with
  | nil =>
    rw [alter, lookup_cons_if]
    rfl
  | cons first rest ih =>
    obtain ⟨s, old⟩ := first
    rw [alter]
    split
    · rename_i same
      subst same
      simp only [lookup_cons_if, if_pos]
      split <;> rfl
    · rename_i differs
      simp only [lookup_cons_if, ih, if_neg (Ne.symm differs)]
      -- the symbol stands further behind, so the first pair is looked at as before
      by_cases hs : other = s
      · subst hs
        rw [if_pos rfl, if_neg differs, if_pos rfl]
      · rw [if_neg hs, if_neg hs]

theorem mem_map_fst_alter :
    other ∈ (alter symbol f pairs).map Prod.fst ↔ other = symbol ∨ other ∈ pairs.map Prod.fst := by
  induction pairs with
  | nil => simp [alter]
  | cons first rest ih =>
    obtain ⟨s, old⟩ := first
    rw [alter]
    split
    · rename_i same
      subst same
      simp
    · rw [List.map_cons, List.mem_cons, ih, List.map_cons, List.mem_cons]
      exact or_left_comm

theorem nodup_alter (nodup : (pairs.map Prod.fst).Nodup) :
    ((alter symbol f pairs).map Prod.fst).Nodup := by
  induction pairs with
  | nil => simp [alter]
  | cons first rest ih =>
    obtain ⟨s, old⟩ := first
    rw [List.map_cons, List.nodup_cons] at nodup
    rw [alter]
    split
    · exact List.nodup_cons.mpr nodup
    · rename_i differs
      rw [List.map_cons, List.nodup_cons, mem_map_fst_alter]
      exact ⟨fun h => h.elim differs nodup.1, ih nodup.2⟩

theorem setTransition_eq_alter (target : Nat) (transitions : List (Symbol × Nat)) :
    setTransition symbol target transitions = alter symbol (fun _ => target) transitions := by
  induction transitions with
  | nil => rfl
  | cons first rest ih => rw [setTransition, alter, ih]

end Lookup

namespace Cfg
variable {cfg : Cfg} {symbol other : Symbol} {core : Core} {lookahead : TerminalSet}

/-! ## Kernels -/

theorem isCore_advance (hc : cfg.IsCore core) (next : cfg.nextSymbol? core = some symbol) :
    cfg.IsCore core.advance := ⟨hc.1, (List.getElem?_eq_some_iff.mp next).1⟩

/-- Whether a kernel is what a symbol leads to from some items. -/
structure IsKernel (cfg : Cfg) (symbol : Symbol) (items : List Item) (kernel : ItemSet) : Prop where
  has_iff : ∀ core, kernel.Has core ↔
    ∃ item ∈ items, cfg.nextSymbol? item.core = some symbol ∧ item.core.advance = core
  allows_iff : ∀ core t, kernel.Allows core t ↔
    ∃ item ∈ items, cfg.nextSymbol? item.core = some symbol ∧ item.core.advance = core ∧
      item.lookahead.contains t
  fits : kernel.Fits cfg

theorem isKernel_nil : cfg.IsKernel symbol [] .empty where
  has_iff core := by simp [ItemSet.not_has_empty]
  allows_iff core t := by simp [ItemSet.not_allows_empty]
  fits := ItemSet.fits_empty

theorem IsKernel.skip {items : List Item} {kernel : ItemSet} {item : Item}
    (h : cfg.IsKernel symbol items kernel) (differs : cfg.nextSymbol? item.core ≠ some symbol) :
    cfg.IsKernel symbol (items ++ [item]) kernel where
  has_iff core := by simp [h.has_iff core, or_and_right, exists_or, differs]
  allows_iff core t := by simp [h.allows_iff core t, or_and_right, exists_or, differs]
  fits := h.fits

theorem IsKernel.insert {items : List Item} {kernel : ItemSet} {item : Item}
    (h : cfg.IsKernel symbol items kernel) (next : cfg.nextSymbol? item.core = some symbol)
    (hc : cfg.IsCore item.core) (hl : item.lookahead.Fits cfg.terminalCount) :
    cfg.IsKernel symbol (items ++ [item]) (kernel.insert item.core.advance item.lookahead) where
  has_iff core := by
    rw [ItemSet.has_insert, h.has_iff core]
    simp only [List.mem_append, List.mem_singleton, or_and_right, exists_or, exists_eq_left, next, true_and]
    rw [eq_comm (a := core)]
  allows_iff core t := by
    rw [ItemSet.allows_insert, h.allows_iff core t]
    simp only [List.mem_append, List.mem_singleton, or_and_right, exists_or, exists_eq_left, next, true_and]
    rw [eq_comm (a := core)]
  fits := h.fits.insert (isCore_advance hc next) hl

theorem IsKernel.covers {items : List Item} {kernel : ItemSet} {item : Item}
    (h : cfg.IsKernel symbol items kernel) (hm : item ∈ items)
    (next : cfg.nextSymbol? item.core = some symbol) :
    kernel.covers item.core.advance item.lookahead :=
  kernel.covers_iff.mpr ⟨(h.has_iff _).mpr ⟨item, hm, next, rfl⟩,
    fun t ht => (h.allows_iff _ t).mpr ⟨item, hm, next, rfl, ht⟩⟩

/-! ## Transitions -/

theorem addToKernel_eq_alter (core : Core) (lookahead : TerminalSet)
    (transitions : List (Symbol × ItemSet)) : addToKernel symbol core lookahead transitions =
      alter symbol (fun known => (known.getD .empty).insert core lookahead) transitions := by
  induction transitions with
  | nil => rfl
  | cons first rest ih =>
    rw [addToKernel, alter, ih]
    rfl

/-- Whether transitions lead from some items on every symbol to its kernel. -/
structure IsTransitions (cfg : Cfg) (items : List Item) (transitions : List (Symbol × ItemSet)) :
    Prop where
  nodup : (transitions.map Prod.fst).Nodup
  isKernel : ∀ symbol, cfg.IsKernel symbol items ((transitions.lookup symbol).getD .empty)
  nonempty : ∀ symbol kernel, transitions.lookup symbol = some kernel → ∃ core, kernel.Has core

/-- The transitions after one more item has been noted. -/
def noted (cfg : Cfg) (transitions : List (Symbol × ItemSet)) (item : Item) : List (Symbol × ItemSet) :=
  match cfg.nextSymbol? item.core with
  | some symbol => addToKernel symbol item.core.advance item.lookahead transitions
  | none => transitions

/-- **A step**: an item is noted in the kernel for the symbol behind its dot, if there is one. -/
theorem IsTransitions.noted {items : List Item} {item : Item} {transitions : List (Symbol × ItemSet)}
    (hc : cfg.IsCore item.core) (hl : item.lookahead.Fits cfg.terminalCount)
    (h : cfg.IsTransitions items transitions) :
    cfg.IsTransitions (items ++ [item]) (cfg.noted transitions item) := by
  rw [Cfg.noted]
  cases next : cfg.nextSymbol? item.core with
  | none =>
    exact ⟨h.nodup, fun symbol => (h.isKernel symbol).skip (by rw [next]; exact nofun), h.nonempty⟩
  | some symbol =>
    simp only [addToKernel_eq_alter]
    refine ⟨nodup_alter h.nodup, ?_, ?_⟩
    · intro other
      rw [lookup_alter]
      split
      · rename_i same
        subst same
        exact (h.isKernel other).insert next hc hl
      · rename_i differs
        exact (h.isKernel other).skip fun same => differs (Option.some.inj (same.symm.trans next))
    · intro other kernel hk
      rw [lookup_alter] at hk
      split at hk
      · cases hk
        exact ⟨_, (ItemSet.has_insert _).mpr (.inr rfl)⟩
      · exact h.nonempty other kernel hk

theorem IsTransitions.foldl_noted {rest items : List Item} {transitions : List (Symbol × ItemSet)}
    (fits : ∀ item ∈ rest, cfg.IsCore item.core ∧ item.lookahead.Fits cfg.terminalCount)
    (h : cfg.IsTransitions items transitions) :
    cfg.IsTransitions (items ++ rest) (rest.foldl cfg.noted transitions) := by
  induction rest generalizing items transitions with
  | nil => rwa [List.append_nil]
  | cons item rest ih =>
    obtain ⟨hc, hl⟩ := fits item List.mem_cons_self
    rw [List.foldl_cons, List.append_cons]
    exact ih (fun other ho => fits other (List.mem_cons_of_mem _ ho)) (h.noted hc hl)

/-- **The transitions of a set of items are their kernels.** -/
theorem isTransitions_transitions {set : ItemSet} (fits : set.Fits cfg) :
    cfg.IsTransitions set.items (cfg.transitions set) := by
  have none : cfg.IsTransitions [] [] := ⟨List.nodup_nil, fun _ => isKernel_nil, nofun⟩
  exact none.foldl_noted fits

theorem isKernel_of_mem_transitions {set kernel : ItemSet} {symbol : Symbol} (fits : set.Fits cfg)
    (h : (symbol, kernel) ∈ cfg.transitions set) : cfg.IsKernel symbol set.items kernel := by
  have isTransitions := isTransitions_transitions fits
  have isKernel := isTransitions.isKernel symbol
  rwa [lookup_eq_some_of_mem isTransitions.nodup h, Option.getD_some] at isKernel

end Cfg
end TableParsing
