import TableParsing.Lr.Conflict
import TableParsing.Proofs.Except
import TableParsing.Proofs.Lr.Transitions

/-! # Cells and demands

A demand in a cell is one of those that met there: **no cell has a demand of its own**.  Precedence may drop
demands or block a cell.  Without precedence nothing is dropped, as every meeting of two demands is a
conflict: **every demand is in its cell**. -/

namespace TableParsing

namespace Grammar
variable {α : Type} {grammar : Grammar α} {state t target production : Nat} {cell cell' : Cell}
  {new demand : Demand}

/-! ## Meetings -/

theorem decide_eq_demand {shift reduce : Precedence}
    (h : shift.decide reduce target production = .demand demand) :
    demand = .shift target ∨ demand = .reduce production := by
  rw [Precedence.decide] at h
  split at h
  · exact .inr (Cell.demand.inj h).symm
  · exact .inl (Cell.demand.inj h).symm
  · split at h
    · exact .inr (Cell.demand.inj h).symm
    · exact .inl (Cell.demand.inj h).symm
    · cases h

theorem settle?_eq_demand (h : grammar.settle? t target production = some (.demand demand)) :
    demand = .shift target ∨ demand = .reduce production := by
  simp only [settle?, Option.bind_eq_bind, Option.bind_eq_some_iff] at h
  obtain ⟨_, -, shift, -, _, -, reduce, -, h⟩ := h
  exact decide_eq_demand (Option.some.inj h)

/-- What comes out of a meeting was in the cell or is new. -/
theorem demand_of_meet (h : grammar.meet state t cell new = .ok (.demand demand)) :
    demand = new ∨ cell = .demand demand := by
  rw [meet.eq_def] at h
  split at h
  · exact .inl (Cell.demand.inj (Except.ok.inj h)).symm
  · split at h
    · cases h
    · cases h
  · split at h
    · rename_i settled
      cases h
      exact (settle?_eq_demand settled).elim (fun h => .inr (h ▸ rfl)) .inl
    · cases h
  · split at h
    · rename_i settled
      cases h
      exact (settle?_eq_demand settled).elim .inl fun h => .inr (h ▸ rfl)
    · cases h
  · split at h
    · exact .inr (congrArg Cell.demand (Cell.demand.inj (Except.ok.inj h)))
    · cases h

/-- Whether no terminal has a precedence. -/
def HasNoPrecedence (grammar : Grammar α) : Prop := ∀ t ∈ grammar.terminals, t.precedence = none

instance (grammar : Grammar α) : Decidable grammar.HasNoPrecedence :=
  inferInstanceAs (Decidable (∀ t ∈ grammar.terminals, t.precedence = none))

theorem HasNoPrecedence.settle?_eq_none (h : grammar.HasNoPrecedence) :
    grammar.settle? t target production = none := by
  rw [settle?]
  cases ht : grammar.terminals[t]? with
  | none => rfl
  | some terminal =>
    have none := h terminal (List.mem_of_getElem? ht)
    simp [none]

/-- Without precedence a demand enters an empty cell or finds itself there. -/
theorem HasNoPrecedence.meet_eq_ok (h : grammar.HasNoPrecedence) (unblocked : ∀ p, cell ≠ .blocked p)
    (met : grammar.meet state t cell new = .ok cell') :
    cell' = .demand new ∧ (cell = .empty ∨ cell = .demand new) := by
  rw [meet.eq_def] at met
  split at met
  · exact ⟨(Except.ok.inj met).symm, .inl rfl⟩
  · rename_i p
    exact absurd rfl (unblocked p)
  · rw [h.settle?_eq_none] at met
    cases met
  · rw [h.settle?_eq_none] at met
    cases met
  · split at met
    · rename_i same
      subst same
      exact ⟨(Except.ok.inj met).symm, .inr rfl⟩
    · cases met

/-! ## Rows of cells -/

variable {cells cells' : Array Cell} {demands : List (Nat × Demand)}

theorem size_fillFrom (h : grammar.fillFrom state cells demands = .ok cells') :
    cells'.size = cells.size := by
  induction demands generalizing cells with
  | nil =>
    cases h
    rfl
  | cons first demands ih =>
    obtain ⟨cell, -, h⟩ := Except.bind_eq_ok_iff.mp h
    exact (ih h).trans Array.size_setIfInBounds

/-- A demand in a cell was there or is one of those that came. -/
theorem mem_of_fillFrom (h : grammar.fillFrom state cells demands = .ok cells')
    (ht : cells'[t]? = some (.demand demand)) :
    (t, demand) ∈ demands ∨ cells[t]? = some (.demand demand) := by
  induction demands generalizing cells with
  | nil =>
    cases h
    exact .inr ht
  | cons first demands ih =>
    obtain ⟨u, new⟩ := first
    obtain ⟨cell, hmeet, h⟩ := Except.bind_eq_ok_iff.mp h
    rcases ih h with hm | hc
    · exact .inl (List.mem_cons_of_mem _ hm)
    · rw [Array.getElem?_setIfInBounds] at hc
      split at hc
      · rename_i same
        subst same
        split at hc
        · rename_i bound
          cases hc
          rcases demand_of_meet hmeet with rfl | old
          · exact .inl List.mem_cons_self
          · rw [Array.getD_eq_getD_getElem?, Array.getElem?_eq_getElem bound] at old
            rw [Array.getElem?_eq_getElem bound]
            exact .inr (congrArg some old)
        · cases hc
      · exact .inr hc

/-- Without precedence a demand that comes blocks no cell and stays beside those that were there. -/
theorem HasNoPrecedence.getElem?_set_of_meet {u : Nat} (hp : grammar.HasNoPrecedence)
    (met : grammar.meet state u (cells.getD u .empty) new = .ok cell)
    (unblocked : ∀ (t p : Nat), cells[t]? ≠ some (.blocked p)) :
    (∀ (t p : Nat), (cells.setIfInBounds u cell)[t]? ≠ some (.blocked p)) ∧
      (∀ (t : Nat) (demand : Demand), cells[t]? = some (.demand demand) →
        (cells.setIfInBounds u cell)[t]? = some (.demand demand)) ∧
      (u < cells.size → (cells.setIfInBounds u cell)[u]? = some (.demand new)) := by
  have unblockedCell : ∀ p, cells.getD u .empty ≠ .blocked p := by
    intro p hb
    rw [Array.getD_eq_getD_getElem?] at hb
    cases hu : cells[u]? with
    | none => rw [hu] at hb; cases hb
    | some old =>
      rw [hu] at hb
      exact unblocked u p (hu.trans (congrArg some hb))
  obtain ⟨rfl, old⟩ := hp.meet_eq_ok unblockedCell met
  refine ⟨fun t p ht => ?_, fun t demand ht => ?_, fun bound => ?_⟩
  · rw [Array.getElem?_setIfInBounds] at ht
    split at ht
    · split at ht <;> cases ht
    · exact unblocked t p ht
  · rw [Array.getElem?_setIfInBounds]
    split
    · rename_i same
      subst same
      obtain ⟨bound, -⟩ := Array.getElem?_eq_some_iff.mp ht
      rw [Array.getD_eq_getD_getElem?, ht, Option.getD_some] at old
      rw [if_pos bound]
      rcases old with old | old
      · cases old
      · rw [old]
    · exact ht
  · rw [Array.getElem?_setIfInBounds, if_pos rfl, if_pos bound]

/-- Without precedence no cell is blocked, demands stay, and all that came are in their cells. -/
theorem HasNoPrecedence.getElem?_fillFrom (hp : grammar.HasNoPrecedence)
    (h : grammar.fillFrom state cells demands = .ok cells')
    (unblocked : ∀ (t p : Nat), cells[t]? ≠ some (.blocked p)) :
    (∀ (t : Nat) (demand : Demand), cells[t]? = some (.demand demand) → cells'[t]? = some (.demand demand)) ∧
      ∀ (t : Nat) (demand : Demand), (t, demand) ∈ demands → t < cells.size →
        cells'[t]? = some (.demand demand) := by
  induction demands generalizing cells with
  | nil =>
    cases h
    exact ⟨fun _ _ => id, fun _ _ hm => absurd hm List.not_mem_nil⟩
  | cons first demands ih =>
    obtain ⟨u, new⟩ := first
    obtain ⟨cell, met, h⟩ := Except.bind_eq_ok_iff.mp h
    obtain ⟨unblocked', stays, enters⟩ := hp.getElem?_set_of_meet met unblocked
    obtain ⟨keeps, comes⟩ := ih h unblocked'
    refine ⟨fun t demand ht => keeps t demand (stays t demand ht), fun t demand hm bound => ?_⟩
    rcases List.mem_cons.mp hm with same | hm
    · obtain ⟨rfl, rfl⟩ := Prod.mk.inj same
      exact keeps t demand (enters bound)
    · exact comes t demand hm (by rwa [Array.size_setIfInBounds])

end Grammar
end TableParsing
