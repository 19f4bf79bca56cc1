import TableParsing.Proofs.Lr.Chart
import TableParsing.Proofs.Table.Unmerged
import TableParsing.Proofs.Table.Verdicts

/-! # Charts of states

A chart with one place for each set of cores bounds the states of both collections (`Chart.bounds`,
`Chart.exists_describes`): words with the same cores lead to one place of it.  So what states may ask for is read off
the chart (`mem_demandsAt`), and if that is agreed on or settled by precedence, the cells are filled
(`harmonious_of_settled`). -/

namespace TableParsing

open Collection (State)

namespace Chart

/-- Whether the chart bounds the states of a grammar. -/
def bounds (chart : Chart) (cfg : Cfg) : Bool := chart.closes cfg && chart.separates

variable {chart : Chart} {cfg : Cfg} {place other : Nat} {core : Core} {ts : List Nat} {word : List Symbol}
  {symbol : Symbol} {t : Nat}

theorem closes_of_bounds (h : chart.bounds cfg) : chart.closes cfg := (Bool.and_eq_true_iff.mp h).1

theorem separates_of_bounds (h : chart.bounds cfg) : chart.separates := (Bool.and_eq_true_iff.mp h).2

/-! ## States -/

/-- Whether a state has and allows no more than a place. -/
structure Describes (chart : Chart) (place : Nat) (state : State) : Prop where
  has : ∀ core, state.items.Has core → chart.Has place core
  allows : ∀ core t, state.items.Allows core t → chart.Allows place core t

variable {mergeCores : Bool} {i : Nat} {state : State}

/-- **A state is described by the place of every word that brings its cores.** -/
theorem exists_describes_of_spells (h : chart.bounds cfg) (wf : cfg.WellFormed)
    (hs : (cfg.collection mergeCores)[i]? = some state) (spells : cfg.Spells word state.kernel) :
    ∃ place, chart.placeAfter word = some place ∧ chart.Describes place state := by
  have automaton := Cfg.isAutomaton_collection wf mergeCores
  obtain ⟨first, hfirst⟩ := automaton.exists_core hs
  have brings {other : List Symbol} (spells : cfg.Spells other state.kernel) :
      ∃ place, chart.placeAfter other = some place ∧ chart.Has place first :=
    exists_has (closes_of_bounds h) ((spells first).mp hfirst).viable
  obtain ⟨place, after, here⟩ := brings spells
  -- all words that bring the cores lead to this place
  have only {other : List Symbol} {place' : Nat} (spells' : cfg.Spells other state.kernel)
      (after' : chart.placeAfter other = some place') : place = place' := by
    obtain ⟨place'', after'', there⟩ := brings spells'
    cases after'.symm.trans after''
    by_cases moved : first.dot = 0
    · have begins {other : List Symbol} (spells : cfg.Spells other state.kernel) : other = [] := by
        cases other with
        | nil => rfl
        | cons symbol other =>
          obtain ⟨old, -, -, advance⟩ := (spells first).mp hfirst
          rw [← advance] at moved
          cases moved
      cases begins spells
      cases begins spells'
      exact Option.some.inj (after.symm.trans after')
    · exact eq_of_has (separates_of_bounds h) moved here there
  refine ⟨place, after, fun core hc => ?_, fun core t allows => ?_⟩
  · have viable := spells.reached_iff.mp ((automaton.sound i state hs).isClosure.has_iff.mp hc)
    obtain ⟨place', after', has⟩ := exists_has (closes_of_bounds h) viable
    cases after.symm.trans after'
    exact has
  · obtain ⟨other, spells', valid⟩ := Cfg.exists_valid_of_allows wf hs allows
    obtain ⟨place', after', allows⟩ := exists_allows (closes_of_bounds h) valid
    exact only spells' after' ▸ allows

/-- **Every state is described by a place.** -/
theorem exists_describes (h : chart.bounds cfg) (wf : cfg.WellFormed)
    (hs : (cfg.collection mergeCores)[i]? = some state) : ∃ place, chart.Describes place state := by
  obtain ⟨word, spells⟩ := (Cfg.explained_collection wf hs).spelled
  exact (exists_describes_of_spells h wf hs spells).imp fun _ => And.right

/-- A place that describes a state is one of the chart. -/
theorem Describes.place_lt (describes : chart.Describes place state) (wf : cfg.WellFormed)
    (hs : (cfg.collection mergeCores)[i]? = some state) : place < chart.rows.length := by
  have automaton := Cfg.isAutomaton_collection wf mergeCores
  obtain ⟨core, hc⟩ := automaton.exists_core hs
  obtain ⟨ts, hm⟩ := describes.has core ((automaton.sound i state hs).isClosure.kernel_le.has core hc)
  exact Chart.place_lt hm

/-! ## Demands -/

/-- What an entry may ask for, whatever state is shifted to. -/
def asks (cfg : Cfg) (entry : Core × List Nat) : List (Nat × Demand) :=
  match cfg.nextSymbol? entry.1 with
  | some (.terminal t) => [(t, .shift 0)]
  | some (.nonTerminal _) => []
  | none =>
    match cfg.resultOf? entry.1.production with
    | none => [(endTerminal, .accept)]
    | some _ => entry.2.map (·, .reduce entry.1.production)

/-- What the states that a place describes may ask for. -/
def demandsAt (chart : Chart) (cfg : Cfg) (place : Nat) : List (Nat × Demand) := (chart.row place).flatMap (asks cfg)

/-- **What a state asks for is in the chart.** -/
theorem mem_demandsAt {d : Demand} (wf : cfg.WellFormed) (hs : (cfg.collection mergeCores)[i]? = some state)
    (describes : chart.Describes place state) (hd : (t, d) ∈ cfg.demands state) :
    (t, d.aimless) ∈ chart.demandsAt cfg place := by
  have automaton := Cfg.isAutomaton_collection wf mergeCores
  have sound := automaton.sound i state hs
  have complete_iff {core : Core} (hc : state.items.Has core) :
      cfg.isComplete core ↔ cfg.nextSymbol? core = none := by
    rw [Cfg.isComplete_iff (sound.isClosure.fits.isCore hc), Cfg.nextSymbol?, List.getElem?_eq_none_iff]
    exact ⟨fun h => Nat.le_of_eq h.symm, fun h => Nat.le_antisymm (sound.isClosure.fits.isCore hc).2 h⟩
  rw [demandsAt, List.mem_flatMap]
  cases d with
  | shift target =>
    have leads := lookup_eq_some_of_mem sound.nodup (Cfg.shift_mem_demands.mp hd)
    obtain ⟨next, hnext, cores⟩ := automaton.advances i state hs _ _ leads
    obtain ⟨core, hc⟩ := automaton.exists_core hnext
    obtain ⟨old, hold, hsymbol, -⟩ := cores core hc
    obtain ⟨ts, hm⟩ := describes.has old hold
    refine ⟨_, hm, ?_⟩
    rw [asks, hsymbol]
    exact List.mem_cons_self
  | reduce p =>
    obtain ⟨item, hm, rfl, complete, result, ht⟩ := Cfg.reduce_mem_demands.mp hd
    obtain ⟨ts, hm', ht⟩ := describes.allows _ t (ItemSet.allows_of_mem _ hm ht)
    refine ⟨_, hm', ?_⟩
    obtain ⟨n, hn⟩ := Option.isSome_iff_exists.mp result
    rw [asks, (complete_iff (state.items.has_iff.mpr ⟨item, hm, rfl⟩)).mp complete]
    simp only [hn]
    exact List.mem_map.mpr ⟨t, ht, rfl⟩
  | accept =>
    obtain ⟨rfl, item, hm, complete, result⟩ := Cfg.accept_mem_demands.mp hd
    have has := state.items.has_iff.mpr ⟨item, hm, rfl⟩
    obtain ⟨ts, hm'⟩ := describes.has _ has
    refine ⟨_, hm', ?_⟩
    rw [asks, (complete_iff has).mp complete]
    simp only [result]
    exact List.mem_cons_self

variable {α : Type} {grammar : Grammar α}

/-- Whether demands are one, or a shift and a reduction with precedence on both sides. -/
def goTogether (grammar : Grammar α) (t : Nat) (d e : Demand) : Bool :=
  d = e ||
    match d, e with
    | .shift _, .reduce p | .reduce p, .shift _ => (grammar.settle? t 0 p).isSome
    | _, _ => false

/-- Whether all that may be asked for in front of a terminal goes together. -/
def settled (chart : Chart) (grammar : Grammar α) (place t : Nat) : Bool :=
  (chart.demandsAt grammar.cfg place).all fun d => (chart.demandsAt grammar.cfg place).all fun e =>
    d.1 ≠ t || e.1 ≠ t || goTogether grammar t d.2 e.2

theorem isSome_settle?_congr {target p : Nat} (h : (grammar.settle? t target p).isSome) (target' : Nat) :
    (grammar.settle? t target' p).isSome := by
  obtain ⟨cell, h⟩ := Option.isSome_iff_exists.mp h
  obtain ⟨terminal, shift, production, reduce, ht, hshift, hp, hreduce, -⟩ := Grammar.settle?_eq_some_iff.mp h
  exact Option.isSome_iff_exists.mpr
    ⟨_, Grammar.settle?_eq_some_iff.mpr ⟨terminal, shift, production, reduce, ht, hshift, hp, hreduce, rfl⟩⟩

theorem goTogether_of_settled {d e : Demand} (settled : chart.settled grammar place t)
    (hd : (t, d) ∈ chart.demandsAt grammar.cfg place) (he : (t, e) ∈ chart.demandsAt grammar.cfg place) :
    goTogether grammar t d e := by
  have h := List.all_eq_true.mp (List.all_eq_true.mp settled _ hd) _ he
  simpa using h

variable (grammar) in
/-- What competes with a shift is in the chart as it is. -/
theorem mem_demandsAt_of_competing {d : Demand} (wf : grammar.cfg.WellFormed)
    (hs : (grammar.cfg.collection mergeCores)[i]? = some state) (describes : chart.Describes place state)
    (hd : d ∈ grammar.cfg.competing state t) : (t, d) ∈ chart.demandsAt grammar.cfg place := by
  obtain ⟨hd, noShift⟩ := Cfg.mem_competing_iff.mp hd
  have same : d.aimless = d := by
    cases d with
    | shift next => exact absurd rfl (noShift next)
    | reduce | accept => rfl
  exact same ▸ mem_demandsAt wf hs describes hd

/-- Demands that are no shifts go together only if they are one. -/
theorem eq_of_goTogether {d e : Demand} (together : goTogether grammar t d e) (hd : ∀ next, d ≠ .shift next)
    (he : ∀ next, e ≠ .shift next) : d = e := by
  cases d with
  | shift next => exact absurd rfl (hd next)
  | reduce p =>
    cases e with
    | shift next => exact absurd rfl (he next)
    | reduce q => simpa [goTogether] using together
    | accept => simp [goTogether] at together
  | accept =>
    cases e with
    | shift next => exact absurd rfl (he next)
    | reduce q => simp [goTogether] at together
    | accept => rfl

variable (grammar) in
/-- **What goes together in the chart goes together in the states.** -/
theorem harmonious_of_settled (wf : grammar.cfg.WellFormed)
    (hs : (grammar.cfg.collection mergeCores)[i]? = some state) (describes : chart.Describes place state)
    (settled : chart.settled grammar place t) :
    grammar.Harmonious t (grammar.cfg.competing state t) (state.transitions.lookup (.terminal t)) := by
  have charted {d : Demand} (hd : d ∈ grammar.cfg.competing state t) :=
    mem_demandsAt_of_competing grammar wf hs describes hd
  have one : ∀ d ∈ grammar.cfg.competing state t, ∀ e ∈ grammar.cfg.competing state t, e = d := fun d hd e he =>
    eq_of_goTogether (goTogether_of_settled settled (charted he) (charted hd))
      (Cfg.mem_competing_iff.mp he).2 (Cfg.mem_competing_iff.mp hd).2
  cases leads : state.transitions.lookup (.terminal t) with
  | none => exact one
  | some target =>
    have shift : (t, .shift 0) ∈ chart.demandsAt grammar.cfg place :=
      mem_demandsAt wf hs describes (Cfg.shift_mem_of_lookup leads)
    by_cases none : grammar.cfg.competing state t = []
    · exact .inl (by rw [none]; exact nofun)
    obtain ⟨d, hd⟩ := List.exists_mem_of_ne_nil _ none
    have together := goTogether_of_settled settled shift (charted hd)
    cases d with
    | shift next => exact absurd hd (Cfg.shift_not_mem_competing next)
    | accept => simp [goTogether] at together
    | reduce p =>
      have decided : (grammar.settle? t 0 p).isSome := by simpa [goTogether] using together
      obtain ⟨cell, hcell⟩ := Option.isSome_iff_exists.mp (isSome_settle?_congr decided target)
      exact Grammar.harmonious_of_settle? hcell hd (one _ hd)

variable (grammar) in
/-- **A grammar with a chart in which all goes together has tables.** -/
theorem exists_table (h : chart.bounds grammar.cfg) (wf : grammar.cfg.WellFormed)
    (settled : ∀ place < chart.rows.length, ∀ t < grammar.terminals.length, chart.settled grammar place t)
    (mergeCores : Bool) : ∃ table, grammar.table mergeCores = .ok table := by
  have automaton := Cfg.isAutomaton_collection wf mergeCores
  refine (Grammar.exists_tableOf_iff fun state hm => ?_).mpr fun i state hs t bound => ?_
  · obtain ⟨i, hs⟩ := List.mem_iff_getElem?.mp hm
    exact (automaton.sound i state hs).nodup
  · obtain ⟨place, describes⟩ := exists_describes h wf hs
    have harmonious := harmonious_of_settled grammar wf hs describes (settled place (describes.place_lt wf hs) t bound)
    exact harmonious.exists_cellOf Cfg.shift_not_mem_competing

/-! ## Cells -/

section Cells
variable (grammar) (wf : grammar.cfg.WellFormed) (hs : (grammar.cfg.collection mergeCores)[i]? = some state)
  (describes : chart.Describes place state)
include wf hs describes

/-- A cell comes to what is asked for, if nothing else may be. -/
theorem cellAt_of_alone {d : Demand} (hd : (t, d) ∈ grammar.cfg.demands state)
    (alone : ∀ e ∈ chart.demandsAt grammar.cfg place, e.1 = t → e.2 = d.aimless) :
    grammar.cellAt i state t = .ok (.demand d) := by
  have nodup := ((Cfg.isAutomaton_collection wf mergeCores).sound i state hs).nodup
  exact Grammar.cellAt_of_only nodup hd fun e he =>
    Cfg.eq_of_aimless_eq nodup he hd (alone _ (mem_demandsAt wf hs describes he) rfl)

/-- A cell comes to a reduction, if there may be nothing but a shift besides, and precedence decides against that. -/
theorem cellAt_of_reduce {p : Nat} (hd : (t, .reduce p) ∈ grammar.cfg.demands state)
    (beside : ∀ e ∈ chart.demandsAt grammar.cfg place, e.1 = t → e.2 = .reduce p ∨
      e.2 = .shift 0 ∧ ∀ target, grammar.settle? t target p = some (.demand (.reduce p))) :
    grammar.cellAt i state t = .ok (.demand (.reduce p)) := by
  have nodup := ((Cfg.isAutomaton_collection wf mergeCores).sound i state hs).nodup
  have cases_of_mem {e : Demand} (he : (t, e) ∈ grammar.cfg.demands state) : e = .reduce p ∨
      (∃ target, e = .shift target) ∧ ∀ target, grammar.settle? t target p = some (.demand (.reduce p)) := by
    rcases beside _ (mem_demandsAt wf hs describes he) rfl with same | ⟨same, settled⟩
    · cases e with
      | shift | accept => cases same
      | reduce q => exact .inl same
    · cases e with
      | shift target => exact .inr ⟨⟨target, rfl⟩, settled⟩
      | reduce | accept => cases same
  by_cases shift : ∃ target, (t, .shift target) ∈ grammar.cfg.demands state
  · obtain ⟨target, shift⟩ := shift
    obtain same | ⟨-, settled⟩ := cases_of_mem shift
    · cases same
    refine Grammar.cellAt_of_settled nodup shift hd (fun e he => ?_) (settled target)
    refine (cases_of_mem he).symm.imp_left ?_
    rintro ⟨⟨other, rfl⟩, -⟩
    exact congrArg Demand.shift (Option.some.inj
      ((Grammar.lookup_of_shift nodup he).symm.trans (Grammar.lookup_of_shift nodup shift)))
  · refine Grammar.cellAt_of_only nodup hd fun e he => (cases_of_mem he).resolve_right ?_
    rintro ⟨⟨target, rfl⟩, -⟩
    exact shift ⟨target, he⟩

end Cells

end Chart
end TableParsing
