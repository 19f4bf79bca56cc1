import TableParsing.Proofs.Lr.Merging
import TableParsing.Proofs.Table.Agreement

/-! # Tables without merging

Every state of the canonical collection is outdone by the merged state with the same cores: whatever the one asks for,
the other asks for, too (`Outdoes.exists_demand`).  So if no merged state asks for two things in front of a terminal, no
canonical state does, and **a grammar that has a table with merged cores has one without** (`agree_unmerged`). -/

namespace TableParsing

open Collection (State)

/-- A demand, whatever state it is that is shifted to. -/
def Demand.aimless : Demand → Demand
  | .shift _ => .shift 0
  | demand => demand

namespace Cfg
variable {cfg : Cfg} {i t : Nat} {a b : State} {d : Demand}

/-- Whether a state has, allows, and leads on behind whatever another one does. -/
structure Outdoes (b a : State) : Prop where
  has : ∀ core, a.items.Has core → b.items.Has core
  allows : ∀ core t, a.items.Allows core t → b.items.Allows core t
  leads : ∀ symbol target, a.transitions.lookup symbol = some target →
    ∃ target', b.transitions.lookup symbol = some target'

/-- A canonical state is outdone by the merged state with its cores. -/
theorem exists_outdoes (wf : cfg.WellFormed) (ha : (cfg.collection false)[i]? = some a) :
    ∃ b ∈ cfg.collection true, Outdoes b a := by
  obtain ⟨f, keeps⟩ := exists_keepsCores wf
  obtain ⟨b, hb, -⟩ := keeps i a ha
  refine ⟨b, List.mem_of_getElem? hb, fun core => (keeps.items_has_iff wf ha hb core).mpr, ?_, ?_⟩
  · intro core t allows
    -- what is allowed is valid for some word with the cores, which leads to the merged state
    obtain ⟨word, spells, valid⟩ := exists_valid_of_allows wf ha allows
    exact (keeps.follows_image wf ha hb spells valid.viable).allows core t valid
  · intro symbol target leads
    rw [keeps.lookup wf ha hb, leads]
    exact ⟨f target, rfl⟩

/-- What a state asks for in front of a terminal is the same if it is so up to the state that is shifted to. -/
theorem eq_of_aimless_eq {e : Demand} (nodup : (a.transitions.map (·.1)).Nodup) (hd : (t, d) ∈ cfg.demands a)
    (he : (t, e) ∈ cfg.demands a) (same : d.aimless = e.aimless) : d = e := by
  cases d with
  | shift next =>
    cases e with
    | shift other =>
      have leads := lookup_eq_some_of_mem nodup (shift_mem_demands.mp hd)
      cases leads.symm.trans (lookup_eq_some_of_mem nodup (shift_mem_demands.mp he))
      rfl
    | reduce | accept => cases same
  | reduce | accept =>
    cases e with
    | shift other => cases same
    | reduce | accept => exact same

namespace Outdoes

/-- What a state asks for, one that outdoes it asks for, up to the state that is shifted to. -/
theorem exists_demand (h : Outdoes b a) (nodup : (a.transitions.map (·.1)).Nodup) (hd : (t, d) ∈ cfg.demands a) :
    ∃ d', (t, d') ∈ cfg.demands b ∧ d'.aimless = d.aimless := by
  cases d with
  | shift next =>
    obtain ⟨next', leads⟩ := h.leads _ _ (lookup_eq_some_of_mem nodup (shift_mem_demands.mp hd))
    exact ⟨.shift next', shift_mem_demands.mpr (mem_of_lookup_eq_some leads), rfl⟩
  | reduce p =>
    obtain ⟨item, hm, rfl, complete, result, ht⟩ := reduce_mem_demands.mp hd
    obtain ⟨item', hm', hcore, ht'⟩ := h.allows _ t (ItemSet.allows_of_mem _ hm ht)
    rw [← hcore] at complete result ⊢
    exact ⟨_, reduce_mem_demands.mpr ⟨item', hm', rfl, complete, result, ht'⟩, rfl⟩
  | accept =>
    obtain ⟨rfl, item, hm, complete, result⟩ := accept_mem_demands.mp hd
    obtain ⟨item', hm', hcore⟩ := b.items.has_iff.mp (h.has _ (a.items.has_iff.mpr ⟨item, hm, rfl⟩))
    rw [← hcore] at complete result
    exact ⟨_, accept_mem_demands.mpr ⟨rfl, item', hm', complete, result⟩, rfl⟩

/-- What is outdone by a state that asks for one thing asks for one thing. -/
theorem agree (h : Outdoes b a) (nodup : (a.transitions.map (·.1)).Nodup) (agree : Agree (cfg.demands b)) :
    Agree (cfg.demands a) := by
  intro t d e hd he
  obtain ⟨d', hd', sameD⟩ := h.exists_demand nodup hd
  obtain ⟨e', he', sameE⟩ := h.exists_demand nodup he
  exact eq_of_aimless_eq nodup hd he (sameD.symm.trans ((congrArg _ (agree t d' e' hd' he')).trans sameE))

end Outdoes

/-- **States that are kept apart agree if they do when merged.** -/
theorem agree_unmerged (wf : cfg.WellFormed) (agree : ∀ state ∈ cfg.collection true, Agree (cfg.demands state)) :
    ∀ state ∈ cfg.collection false, Agree (cfg.demands state) := by
  intro a ha
  obtain ⟨i, hi⟩ := List.mem_iff_getElem?.mp ha
  obtain ⟨b, hb, outdoes⟩ := exists_outdoes wf hi
  exact outdoes.agree ((isAutomaton_collection wf false).sound i a hi).nodup (agree b hb)

end Cfg
end TableParsing
