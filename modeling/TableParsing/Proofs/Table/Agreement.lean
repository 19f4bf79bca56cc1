import TableParsing.Proofs.Table.Parser

/-! # Grammars that have tables

If no state asks for two things in front of one terminal, its cells are filled without a conflict, so the grammar
has a table (`exists_table_of_agree`).  A state agrees with itself in particular if it asks for one thing
altogether.  So it is with the grammar of a single terminal: behind the terminal, and behind the start symbol,
every state has one complete item. -/

namespace TableParsing

/-- Whether demands ask for one thing in front of each terminal. -/
def Agree (demands : List (Nat × Demand)) : Prop :=
  ∀ t d d', (t, d) ∈ demands → (t, d') ∈ demands → d = d'

namespace Grammar
variable {α : Type} {grammar : Grammar α} {states : List Collection.State} {state : Collection.State}
  {demands : List (Nat × Demand)} {cells : Array Cell} {i t : Nat}

theorem meet_self (d : Demand) : grammar.meet i t (.demand d) d = .ok (.demand d) := by
  rw [meet.eq_def]
  cases d <;> exact if_pos rfl

/-- Demands that agree with each other and with the cells fill them. -/
theorem exists_fillFrom (agree : Agree demands)
    (fits : ∀ (t : Nat) cell, cells[t]? = some cell →
      cell = .empty ∨ ∃ d, cell = .demand d ∧ ∀ d', (t, d') ∈ demands → d' = d) :
    ∃ cells', grammar.fillFrom i cells demands = .ok cells' := by
  induction demands generalizing cells with
  | nil => exact ⟨cells, rfl⟩
  | cons first demands ih =>
    obtain ⟨u, new⟩ := first
    have met : grammar.meet i u (cells.getD u .empty) new = .ok (.demand new) := by
      rw [Array.getD_eq_getD_getElem?]
      cases hu : cells[u]? with
      | none => rfl
      | some cell =>
        rcases fits u cell hu with rfl | ⟨d, rfl, same⟩
        · rfl
        · cases same new List.mem_cons_self
          exact meet_self new
    obtain ⟨cells', filled⟩ := ih
      (fun t d d' h h' => agree t d d' (List.mem_cons_of_mem _ h) (List.mem_cons_of_mem _ h'))
      fun t cell ht => by
        rw [Array.getElem?_setIfInBounds] at ht
        split at ht
        · rename_i same
          subst same
          split at ht
          · cases ht
            exact .inr ⟨new, rfl, fun d' h => agree u d' new (List.mem_cons_of_mem _ h) List.mem_cons_self⟩
          · cases ht
        · exact (fits t cell ht).imp_right fun ⟨d, hd, same⟩ =>
            ⟨d, hd, fun d' h => same d' (List.mem_cons_of_mem _ h)⟩
    exact ⟨cells', Except.bind_eq_ok_iff.mpr ⟨_, met, filled⟩⟩

/-- **States that agree have a table.** -/
theorem exists_table_of_agree (agree : ∀ state ∈ states, Agree (grammar.cfg.demands state)) :
    ∃ table, grammar.tableOf states = .ok table := by
  have filled (place : Collection.State × Nat) (hm : place ∈ states.zipIdx) :
      ∃ row, grammar.fillRow place.2 place.1 = .ok row := by
    have empty (t : Nat) (cell : Cell)
        (ht : (Array.replicate grammar.terminals.length Cell.empty)[t]? = some cell) : cell = .empty := by
      rw [Array.getElem?_replicate] at ht
      split at ht
      · exact (Option.some.inj ht).symm
      · cases ht
    obtain ⟨cells, filled⟩ := exists_fillFrom (agree place.1 (List.fst_mem_of_mem_zipIdx hm))
      fun t cell ht => .inl (empty t cell ht)
    exact ⟨_, Except.bind_eq_ok_iff.mpr ⟨cells, filled, rfl⟩⟩
  obtain ⟨rows, hrows⟩ := Except.exists_mapM_eq_ok filled
  exact ⟨_, Except.bind_eq_ok_iff.mpr ⟨rows, hrows, rfl⟩⟩

/-! ## The grammar of one terminal -/

/-- Whether the start symbol has one production, which is of one terminal, and no other symbol has any. -/
structure IsSingle (grammar : Grammar α) (t : Nat) : Prop where
  productions : ∃ production, grammar.productions = [production] ∧ production.symbols = [.terminal t] ∧
    production.result = grammar.start

namespace IsSingle
variable (single : grammar.IsSingle t)
include single

theorem symbolsOf_zero : grammar.cfg.symbolsOf 0 = [.terminal t] := by
  obtain ⟨production, hp, symbols, -⟩ := single.productions
  rw [symbolsOf_eq (by rw [hp]; rfl), symbols]

theorem augmented_eq : grammar.cfg.augmented = 1 := by
  obtain ⟨production, hp, -⟩ := single.productions
  rw [Cfg.augmented, cfg, List.size_toArray, List.length_map, hp]
  rfl

theorem symbolsOf_one : grammar.cfg.symbolsOf 1 = [.nonTerminal grammar.start] := by
  rw [← single.augmented_eq]
  exact Cfg.symbolsOf_augmented

/-- Both right-hand sides are one symbol long. -/
theorem length_symbolsOf {p : Nat} (h : p ≤ 1) : (grammar.cfg.symbolsOf p).length = 1 := by
  rcases Nat.le_one_iff_eq_zero_or_eq_one.mp h with rfl | rfl
  · rw [single.symbolsOf_zero]
    rfl
  · rw [single.symbolsOf_one]
    rfl

/-- What has moved on tells by its symbol in which production. -/
theorem cases_moved {core old : Core} {symbol : Symbol} (hc : grammar.cfg.IsCore core)
    (next : grammar.cfg.nextSymbol? old = some symbol) (advance : old.advance = core) :
    core = ⟨0, 1⟩ ∧ symbol = .terminal t ∨ core = ⟨1, 1⟩ ∧ symbol = .nonTerminal grammar.start := by
  obtain ⟨p, dot⟩ := old
  subst advance
  have hp : p ≤ 1 := single.augmented_eq ▸ hc.1
  have hdot : dot + 1 ≤ (grammar.cfg.symbolsOf p).length := hc.2
  rw [single.length_symbolsOf hp] at hdot
  obtain rfl : dot = 0 := by omega
  rcases Nat.le_one_iff_eq_zero_or_eq_one.mp hp with rfl | rfl
  · rw [Cfg.nextSymbol?, single.symbolsOf_zero] at next
    exact .inl ⟨rfl, (Option.some.inj next).symm⟩
  · rw [Cfg.nextSymbol?, single.symbolsOf_one] at next
    exact .inr ⟨rfl, (Option.some.inj next).symm⟩

theorem nextSymbol?_behind {p : Nat} (h : p ≤ 1) : grammar.cfg.nextSymbol? ⟨p, 1⟩ = none :=
  List.getElem?_eq_none (Nat.le_of_eq (single.length_symbolsOf h))

/-- A state is in front of all symbols, or behind the one symbol of a production. -/
theorem cases_state (automaton : grammar.cfg.IsAutomaton states) (hs : states[i]? = some state) :
    (∀ core, state.items.Has core → core.dot = 0) ∨
      ∃ p ≤ 1, ∀ core, state.items.Has core → core = ⟨p, 1⟩ := by
  have sound := automaton.sound i state hs
  rcases automaton.moved i state hs with rfl | ⟨symbol, ⟨⟨first, hfirst⟩, moved⟩⟩
  · obtain ⟨start, hstart, cores, -⟩ := automaton.start
    cases hstart.symm.trans hs
    refine .inl fun core hc => ?_
    cases sound.isClosure.reached core hc with
    | kernel hk => rw [(cores core).mp hk]
    | expand _ _ _ => rfl
  · have behind (core : Core) (hc : state.kernel.Has core) :
        core = ⟨0, 1⟩ ∧ symbol = .terminal t ∨ core = ⟨1, 1⟩ ∧ symbol = .nonTerminal grammar.start := by
      obtain ⟨old, next, advance⟩ := moved core hc
      exact single.cases_moved (sound.fits.isCore hc) next advance
    have kernel : ∃ p ≤ 1, ∀ core, state.kernel.Has core → core = ⟨p, 1⟩ := by
      rcases behind first hfirst with ⟨-, rfl⟩ | ⟨-, rfl⟩
      · exact ⟨0, Nat.zero_le 1, fun core hc => (behind core hc).elim And.left fun h => nomatch h.2⟩
      · exact ⟨1, Nat.le_refl 1, fun core hc => (behind core hc).elim (fun h => nomatch h.2) And.left⟩
    obtain ⟨p, hp, kernel⟩ := kernel
    refine .inr ⟨p, hp, fun core hc => ?_⟩
    induction sound.isClosure.reached core hc with
    | kernel hk => exact kernel _ hk
    | expand hr next _ ih =>
      rw [ih (sound.isClosure.has_iff.mpr hr), single.nextSymbol?_behind hp] at next
      cases next

/-- In front of all symbols nothing is complete, and a state can only shift. -/
theorem exists_shift_of_front {u : Nat} {d : Demand} (automaton : grammar.cfg.IsAutomaton states)
    (hs : states[i]? = some state) (front : ∀ core, state.items.Has core → core.dot = 0)
    (h : (u, d) ∈ grammar.cfg.demands state) :
    ∃ target, d = .shift target ∧ state.transitions.lookup (.terminal u) = some target := by
  have sound := automaton.sound i state hs
  have incomplete {item : Item} (hm : item ∈ state.items.items) : ¬grammar.cfg.isComplete item.core := by
    have has := state.items.has_iff.mpr ⟨item, hm, rfl⟩
    have isCore := sound.isClosure.fits.isCore has
    rw [Cfg.isComplete_iff isCore, front _ has, single.length_symbolsOf (single.augmented_eq ▸ isCore.1)]
    exact Nat.zero_ne_one
  cases d with
  | shift target => exact ⟨target, rfl, lookup_eq_some_of_mem sound.nodup (Cfg.shift_mem_demands.mp h)⟩
  | reduce q =>
    obtain ⟨item, hm, -, complete, -⟩ := Cfg.reduce_mem_demands.mp h
    exact absurd complete (incomplete hm)
  | accept =>
    obtain ⟨-, item, hm, complete, -⟩ := Cfg.accept_mem_demands.mp h
    exact absurd complete (incomplete hm)

/-- Behind the one symbol of a production nothing leads on, and a state can only reduce it or accept. -/
theorem reduce_or_accept_of_behind {u p : Nat} {d : Demand} (automaton : grammar.cfg.IsAutomaton states)
    (hs : states[i]? = some state) (hp : p ≤ 1) (behind : ∀ core, state.items.Has core → core = ⟨p, 1⟩)
    (h : (u, d) ∈ grammar.cfg.demands state) :
    d = .reduce p ∧ (grammar.cfg.resultOf? p).isSome ∨ d = .accept ∧ grammar.cfg.resultOf? p = none := by
  have sound := automaton.sound i state hs
  cases d with
  | shift target =>
    have leads := lookup_eq_some_of_mem sound.nodup (Cfg.shift_mem_demands.mp h)
    obtain ⟨next, hnext, cores⟩ := automaton.advances i state hs _ _ leads
    obtain ⟨core, hc⟩ := automaton.exists_core hnext
    obtain ⟨old, hold, symbol, -⟩ := cores core hc
    rw [behind old hold, single.nextSymbol?_behind hp] at symbol
    cases symbol
  | reduce q =>
    obtain ⟨item, hm, rfl, -, result, -⟩ := Cfg.reduce_mem_demands.mp h
    have same := behind _ (state.items.has_iff.mpr ⟨item, hm, rfl⟩)
    rw [same] at result ⊢
    exact .inl ⟨rfl, result⟩
  | accept =>
    obtain ⟨-, item, hm, -, result⟩ := Cfg.accept_mem_demands.mp h
    rw [behind _ (state.items.has_iff.mpr ⟨item, hm, rfl⟩)] at result
    exact .inr ⟨rfl, result⟩

theorem agree_demands (automaton : grammar.cfg.IsAutomaton states) (hs : states[i]? = some state) :
    Agree (grammar.cfg.demands state) := by
  intro u d d' h h'
  rcases single.cases_state automaton hs with front | ⟨p, hp, behind⟩
  · obtain ⟨target, rfl, leads⟩ := single.exists_shift_of_front automaton hs front h
    obtain ⟨target', rfl, leads'⟩ := single.exists_shift_of_front automaton hs front h'
    cases leads.symm.trans leads'
    rfl
  · rcases single.reduce_or_accept_of_behind automaton hs hp behind h with ⟨rfl, result⟩ | ⟨rfl, result⟩ <;>
      rcases single.reduce_or_accept_of_behind automaton hs hp behind h' with ⟨rfl, result'⟩ | ⟨rfl, result'⟩
    · rfl
    · rw [result'] at result
      cases result
    · rw [result] at result'
      cases result'
    · rfl

/-- **The grammar of one terminal has a table**, whether cores are merged or not. -/
theorem exists_table (wf : grammar.cfg.WellFormed) (mergeCores : Bool) :
    ∃ table, grammar.table mergeCores = .ok table := by
  have automaton := Cfg.isAutomaton_collection wf mergeCores
  refine exists_table_of_agree fun state hm => ?_
  obtain ⟨i, hi⟩ := List.mem_iff_getElem?.mp hm
  exact single.agree_demands automaton hi

end IsSingle

end Grammar
end TableParsing
