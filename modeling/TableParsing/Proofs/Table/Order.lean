import TableParsing.Proofs.Lr.Halting
import TableParsing.Proofs.Lr.Renumbering
import TableParsing.Proofs.Table.Meeting

/-! # When the order of productions matters

Productions that are declared in another order make the same states, and the same demands on every terminal, in another
order.  A cell forgets what it has decided against.  So if of several reductions some give way to the shift and one
prevails over it, then **it matters which comes last**: where the reductions that give way come first, they are dropped
one by one; where the other one comes first, it is in the cell when they come.  Such a cell is **contested**
(`Grammar.Contested`).

Of all cells just the contested ones depend on the order of the reductions (`cellOf_order_free_iff`).  So a grammar
whose automaton has no contested cell has tables in every order of its productions, or in none
(`Reorders.exists_table`). -/

namespace TableParsing

open Collection (State)

namespace Grammar
variable {α : Type} {grammar reordered : Grammar α} {i t target : Nat} {shift? : Option Nat} {cell : Cell}
  {d : Demand} {ds others : List Demand}

/-! ## Contested cells -/

/-- Whether of the demands behind a shift some give way to it, and exactly one prevails. -/
structure Contested (grammar : Grammar α) (t target : Nat) (ds : List Demand) : Prop where
  loser : ∃ d ∈ ds, grammar.GivesWay t target d
  winner : ∃ d ∈ ds, (∃ cell, grammar.Prevails t target cell d) ∧
    ∀ other ∈ ds, other = d ∨ grammar.GivesWay t target other

theorem Contested.of_perm (h : grammar.Contested t target others) (perm : others.Perm ds) :
    grammar.Contested t target ds := by
  obtain ⟨⟨loser, hloser, way⟩, winner, hwinner, prevails, rest⟩ := h
  exact ⟨⟨loser, perm.mem_iff.mp hloser, way⟩, winner, perm.mem_iff.mp hwinner, prevails,
    fun other ho => rest other (perm.mem_iff.mpr ho)⟩

/-- Whether demands come to a cell in whatever order they come. -/
def Harmonious (grammar : Grammar α) (t : Nat) (ds : List Demand) : Option Nat → Prop
  | none => ∀ d ∈ ds, ∀ other ∈ ds, other = d
  | some target => (∀ d ∈ ds, grammar.GivesWay t target d) ∨
      ∃ d ∈ ds, (∃ cell, grammar.Prevails t target cell d) ∧ ∀ other ∈ ds, other = d

/-- What prevails in a cell that is not contested is alone. -/
theorem eq_of_prevails (calm : ¬grammar.Contested t target ds) {front back : List Demand}
    (split : ds = front ++ d :: back) (ways : ∀ other ∈ front, grammar.GivesWay t target other)
    (prevails : grammar.Prevails t target cell d) (same : ∀ other ∈ back, other = d) : ∀ other ∈ ds, other = d := by
  have place : ∀ other ∈ ds, other ∈ front ∨ other = d := by
    intro other hm
    rw [split, List.mem_append, List.mem_cons] at hm
    exact hm.imp_right fun h => h.elim id (same other)
  have here : d ∈ ds := by
    rw [split]
    exact List.mem_append_right _ List.mem_cons_self
  intro other hm
  refine (place other hm).resolve_left fun hfront =>
    calm ⟨⟨other, hm, ways other hfront⟩, d, here, ⟨cell, prevails⟩, ?_⟩
  exact fun other hm => (place other hm).symm.imp_right (ways other)

theorem harmonious_of_cellOf (noShift : ∀ next, .shift next ∉ ds)
    (calm : ∀ target, shift? = some target → ¬grammar.Contested t target ds)
    (h : grammar.cellOf i t shift? ds = .ok cell) : grammar.Harmonious t ds shift? := by
  cases shift? with
  | none =>
    rcases (meetAll_empty_eq_ok_iff noShift).mp h with ⟨rfl, -⟩ | ⟨d, -, -, all⟩
    · exact nofun
    · exact fun e he other ho => (all other ho).trans (all e he).symm
  | some target =>
    rcases (meetAll_shift_eq_ok_iff noShift).mp h with ⟨-, all⟩ | ⟨front, back, d, split, ways, prevails, same⟩
    · exact .inl all
    · have here : d ∈ ds := by
        rw [split]
        exact List.mem_append_right _ List.mem_cons_self
      exact .inr ⟨d, here, ⟨cell, prevails⟩, eq_of_prevails (calm target rfl) split ways prevails same⟩

/-- Where all demands are the one that prevails, nothing comes in front of it. -/
theorem split_of_forall_eq (prevails : grammar.Prevails t target cell d) (hd : d ∈ ds)
    (same : ∀ other ∈ ds, other = d) : ∃ front back d, ds = front ++ d :: back ∧
      (∀ other ∈ front, grammar.GivesWay t target other) ∧ grammar.Prevails t target cell d ∧
      ∀ other ∈ back, other = d := by
  cases ds with
  | nil => cases hd
  | cons first back =>
    obtain ⟨rfl, same⟩ := List.forall_mem_cons.mp same
    exact ⟨[], back, first, rfl, nofun, prevails, same⟩

theorem Harmonious.exists_cellOf (noShift : ∀ next, .shift next ∉ ds) (h : grammar.Harmonious t ds shift?) :
    ∃ cell, grammar.cellOf i t shift? ds = .ok cell := by
  cases shift? with
  | none =>
    cases ds with
    | nil => exact ⟨_, rfl⟩
    | cons d ds =>
      exact ⟨_, (meetAll_empty_eq_ok_iff noShift).mpr
        (.inr ⟨d, List.mem_cons_self, rfl, h d List.mem_cons_self⟩)⟩
  | some target =>
    rcases h with all | ⟨d, hd, ⟨cell, prevails⟩, same⟩
    · exact ⟨_, (meetAll_shift_eq_ok_iff noShift).mpr (.inl ⟨rfl, all⟩)⟩
    · exact ⟨cell, (meetAll_shift_eq_ok_iff noShift).mpr (.inr (split_of_forall_eq prevails hd same))⟩

/-- A shift and a reduction come to a cell if precedence settles between them. -/
theorem harmonious_of_settle? {p : Nat} (settled : grammar.settle? t target p = some cell) (hd : .reduce p ∈ ds)
    (same : ∀ other ∈ ds, other = .reduce p) : grammar.Harmonious t ds (some target) := by
  by_cases way : cell = .demand (.shift target)
  · exact .inl fun other ho => same other ho ▸ .intro (way ▸ settled)
  · exact .inr ⟨_, hd, ⟨cell, .intro settled way⟩, same⟩

/-- **What comes to a cell that is not contested comes to it in every order.** -/
theorem cellOf_eq_ok_of_perm (noShift : ∀ next, .shift next ∉ ds)
    (calm : ∀ target, shift? = some target → ¬grammar.Contested t target ds) (perm : others.Perm ds)
    (h : grammar.cellOf i t shift? ds = .ok cell) : grammar.cellOf i t shift? others = .ok cell := by
  have noShift' : ∀ next, .shift next ∉ others := fun next hm => noShift next (perm.mem_iff.mp hm)
  cases shift? with
  | none =>
    refine (meetAll_empty_eq_ok_iff noShift').mpr ?_
    rcases (meetAll_empty_eq_ok_iff noShift).mp h with ⟨rfl, rfl⟩ | ⟨d, hd, rfl, all⟩
    · exact .inl ⟨perm.eq_nil, rfl⟩
    · exact .inr ⟨d, perm.mem_iff.mpr hd, rfl, fun other ho => all other (perm.mem_iff.mp ho)⟩
  | some target =>
    refine (meetAll_shift_eq_ok_iff noShift').mpr ?_
    rcases (meetAll_shift_eq_ok_iff noShift).mp h with ⟨rfl, all⟩ | ⟨front, back, d, split, ways, prevails, same⟩
    · exact .inl ⟨rfl, fun other ho => all other (perm.mem_iff.mp ho)⟩
    · have alone := eq_of_prevails (calm target rfl) split ways prevails same
      have here : d ∈ ds := by
        rw [split]
        exact List.mem_append_right _ List.mem_cons_self
      exact .inr (split_of_forall_eq prevails (perm.mem_iff.mpr here) fun other ho => alone other (perm.mem_iff.mp ho))

/-- The demands of a contested cell can be put in order: first those that give way, then the one that prevails. -/
theorem Contested.exists_split (h : grammar.Contested t target ds) : ∃ front back d cell,
    (front ++ d :: back).Perm ds ∧ front ≠ [] ∧ (∀ other ∈ front, grammar.GivesWay t target other) ∧
      grammar.Prevails t target cell d ∧ ∀ other ∈ back, other = d := by
  obtain ⟨⟨loser, hloser, way⟩, d, hd, ⟨cell, prevails⟩, rest⟩ := h
  obtain ⟨ds, hds⟩ := List.append_of_mem hd
  obtain ⟨tail, rfl⟩ := hds
  let apart (other : Demand) : Bool := decide (other ≠ d)
  have perm : ((ds ++ tail).filter apart ++ d :: (ds ++ tail).filter fun other => !apart other).Perm
      (ds ++ d :: tail) :=
    (List.perm_middle.trans (.cons d (List.filter_append_perm apart (ds ++ tail)))).trans List.perm_middle.symm
  have mem {other : Demand} (ho : other ∈ ds ++ tail) : other ∈ ds ++ d :: tail := by
    simp only [List.mem_append, List.mem_cons] at ho ⊢
    exact ho.imp_right .inr
  refine ⟨_, _, d, cell, perm, fun none => ?_, fun other ho => ?_, prevails, fun other ho => ?_⟩
  · have differs : loser ≠ d := fun same => prevails.not_givesWay (same ▸ way)
    have there : loser ∈ ds ++ tail := by
      simp only [List.mem_append, List.mem_cons, differs, false_or] at hloser ⊢
      exact hloser
    have here : loser ∈ (ds ++ tail).filter apart := List.mem_filter.mpr ⟨there, decide_eq_true differs⟩
    rw [none] at here
    cases here
  · obtain ⟨ho, differs⟩ := List.mem_filter.mp ho
    exact (rest other (mem ho)).resolve_left (of_decide_eq_true differs)
  · simpa [apart] using (List.mem_filter.mp ho).2

/-- **A contested cell is filled in one order and not in another.** -/
theorem Contested.exists_orders (noShift : ∀ next, .shift next ∉ ds) (h : grammar.Contested t target ds) :
    ∃ good bad : List Demand, good.Perm ds ∧ bad.Perm ds ∧
      (∃ cell, grammar.cellOf i t (some target) good = .ok cell) ∧
      ∀ cell, grammar.cellOf i t (some target) bad ≠ .ok cell := by
  obtain ⟨front, back, d, cell, perm, nonempty, ways, prevails, same⟩ := h.exists_split
  have perm' : (d :: (front ++ back)).Perm ds := List.perm_middle.symm.trans perm
  have noShift' {others : List Demand} (perm : others.Perm ds) : ∀ next, .shift next ∉ others :=
    fun next hm => noShift next (perm.mem_iff.mp hm)
  refine ⟨_, _, perm, perm', ⟨cell, ?_⟩, fun cell' filled => ?_⟩
  · exact (meetAll_shift_eq_ok_iff (noShift' perm)).mpr (.inr ⟨front, back, d, rfl, ways, prevails, same⟩)
  · rcases (meetAll_shift_eq_ok_iff (noShift' perm')).mp filled with
      ⟨-, all⟩ | ⟨front', back', d', split, ways', -, same'⟩
    · exact prevails.not_givesWay (all d List.mem_cons_self)
    · cases front' with
      | cons first front' =>
        obtain ⟨rfl, -⟩ := List.cons.inj split
        exact prevails.not_givesWay (ways' d List.mem_cons_self)
      | nil =>
        obtain ⟨rfl, rfl⟩ := List.cons.inj split
        -- what comes behind what prevails gives way, so it is something else
        obtain ⟨first, hfirst⟩ := List.exists_mem_of_ne_nil front nonempty
        have here := same' first (List.mem_append_left _ hfirst)
        exact prevails.not_givesWay (here ▸ ways first hfirst)

/-- **Of all cells just the contested ones depend on the order** in which the reductions come behind the shift. -/
theorem forall_perm_iff_calm (noShift : ∀ next, .shift next ∉ ds) :
    (∀ others : List Demand, others.Perm ds →
        (grammar.cellOf i t shift? others).toOption = (grammar.cellOf i t shift? ds).toOption) ↔
      ∀ target, shift? = some target → ¬grammar.Contested t target ds := by
  constructor
  · rintro free target rfl contested
    obtain ⟨good, bad, perm, perm', ⟨cell, filled⟩, clash⟩ := contested.exists_orders (i := i) noShift
    have same := (free good perm).trans (free bad perm').symm
    rw [filled] at same
    cases refused : grammar.cellOf i t (some target) bad with
    | ok cell => exact clash cell refused
    | error conflict =>
      rw [refused] at same
      cases same
  · intro calm others perm
    cases filled : grammar.cellOf i t shift? ds with
    | ok cell => rw [cellOf_eq_ok_of_perm noShift calm perm filled]
    | error conflict =>
      have noShift' : ∀ next, .shift next ∉ others := fun next hm => noShift next (perm.mem_iff.mp hm)
      cases filled' : grammar.cellOf i t shift? others with
      | error conflict' => rfl
      | ok cell =>
        have calm' : ∀ target, shift? = some target → ¬grammar.Contested t target others :=
          fun target ht contested => calm target ht (contested.of_perm perm)
        rw [cellOf_eq_ok_of_perm noShift' calm' perm.symm filled'] at filled
        cases filled

end Grammar

/-! ## Productions in another order -/

namespace Cfg
variable {cfg : Cfg} {state : State} {p t : Nat}

theorem reduce_mem_demands_iff_allows (fits : state.items.Fits cfg) : (t, .reduce p) ∈ cfg.demands state ↔
    ∃ rule, cfg.rules[p]? = some rule ∧ state.items.Allows ⟨p, rule.symbols.length⟩ t := by
  refine ⟨fun h => ?_, fun ⟨rule, hp, allows⟩ => reduce_mem_of_allows hp allows⟩
  obtain ⟨item, hm, rfl, complete, result, ht⟩ := reduce_mem_demands.mp h
  obtain ⟨n, hn⟩ := Option.isSome_iff_exists.mp result
  obtain ⟨rule, hp, -⟩ := resultOf?_eq_some_iff.mp hn
  have dot := (isComplete_iff (fits item hm).1).mp complete
  rw [symbolsOf_rule hp] at dot
  exact ⟨rule, hp, item, hm, by rw [← dot], ht⟩

end Cfg

/-- The demand with its production under another number. -/
def Demand.renumber (σ : Equiv.Perm Nat) : Demand → Demand
  | .reduce p => .reduce (σ p)
  | demand => demand

namespace Grammar
variable {α : Type} {σ : Equiv.Perm Nat} {grammar reordered : Grammar α} {mergeCores : Bool} {t target target' p : Nat}
  {cell : Cell} {d : Demand} {state state' : State} {shift? shift?' : Option Nat}

theorem accept_mem_demands_iff_has (fits : state.items.Fits grammar.cfg) :
    (t, .accept) ∈ grammar.cfg.demands state ↔ t = endTerminal ∧ state.items.Has ⟨grammar.cfg.augmented, 1⟩ := by
  refine ⟨fun h => ?_, fun ⟨atEnd, has⟩ => atEnd ▸ Cfg.accept_mem_of_has has⟩
  obtain ⟨atEnd, item, hm, complete, result⟩ := Cfg.accept_mem_demands.mp h
  exact ⟨atEnd, state.items.has_iff.mpr ⟨item, hm, Machine.core_eq_augmented (fits item hm).1 complete result⟩⟩

/-- Whether a grammar is another one with its productions in another order. -/
structure IsReordering (reordered grammar : Grammar α) : Prop where
  terminals : reordered.terminals = grammar.terminals
  nonTerminals : reordered.nonTerminals = grammar.nonTerminals
  start : reordered.start = grammar.start
  productions : reordered.productions.Perm grammar.productions

/-- The same with the places of the productions. -/
structure Reorders (σ : Equiv.Perm Nat) (grammar reordered : Grammar α) : Prop where
  renumbers : grammar.cfg.Renumbers σ reordered.cfg
  terminals : reordered.terminals = grammar.terminals
  productions : ∀ p : Nat, reordered.productions[σ p]? = grammar.productions[p]?

theorem IsReordering.exists_reorders (h : reordered.IsReordering grammar) : ∃ σ, Reorders σ grammar reordered := by
  obtain ⟨σ, same, fixed⟩ := exists_places_of_perm h.productions.symm
  refine ⟨σ, ⟨fun p => ?_, ?_, h.start⟩, h.terminals, same⟩
  · simp only [cfg, List.getElem?_toArray, List.getElem?_map, same p]
  · have length : reordered.cfg.augmented = grammar.cfg.augmented := by
      simp only [Cfg.augmented, cfg, List.size_toArray, List.length_map, h.productions.length_eq]
    rw [length]
    refine fixed _ (Nat.le_of_eq ?_)
    simp only [Cfg.augmented, cfg, List.size_toArray, List.length_map]

theorem IsReordering.wellFormed (h : reordered.IsReordering grammar) (wf : grammar.cfg.WellFormed) :
    reordered.cfg.WellFormed := by
  have terminalCount : reordered.cfg.terminalCount = grammar.cfg.terminalCount := congrArg List.length h.terminals
  have nonTerminalCount : reordered.cfg.nonTerminalCount = grammar.cfg.nonTerminalCount :=
    congrArg List.length h.nonTerminals
  have rules {rule : Rule} (hr : rule ∈ reordered.cfg.rules) : rule ∈ grammar.cfg.rules := by
    obtain ⟨p, hp, rfl⟩ := mem_rules_cfg.mp hr
    exact mem_rules_cfg.mpr ⟨p, h.productions.mem_iff.mp hp, rfl⟩
  refine ⟨terminalCount ▸ wf.errorTerminal_lt, ?_, fun rule hr => ?_, fun rule hr => ?_, fun rule hr => ?_⟩
  · rw [nonTerminalCount]
    exact (show reordered.cfg.start = grammar.cfg.start from h.start) ▸ wf.start_lt
  · exact nonTerminalCount ▸ wf.result_lt rule (rules hr)
  · exact terminalCount ▸ wf.terminal_lt rule (rules hr)
  · exact nonTerminalCount ▸ wf.nonTerminal_lt rule (rules hr)

/-- What precedence decides for the shift it decides so whatever is shifted to and reduced. -/
theorem decide_eq_shift_congr {shift reduce : Precedence} {q : Nat}
    (h : shift.decide reduce target p = .demand (.shift target)) :
    shift.decide reduce target' q = .demand (.shift target') := by
  rw [Precedence.decide] at h ⊢
  split at h
  · cases h
  · rfl
  · split at h
    · cases h
    · rfl
    · cases h

theorem settle?_eq_some_iff : grammar.settle? t target p = some cell ↔ ∃ terminal shift production reduce,
    grammar.terminals[t]? = some terminal ∧ terminal.precedence = some shift ∧
      grammar.productions[p]? = some production ∧ production.precedence = some reduce ∧
        shift.decide reduce target p = cell := by
  simp only [settle?, Option.bind_eq_bind, Option.bind_eq_some_iff, Option.pure_def, Option.some.injEq]
  constructor
  · rintro ⟨terminal, ht, shift, hshift, production, hp, reduce, hreduce, h⟩
    exact ⟨terminal, shift, production, reduce, ht, hshift, hp, hreduce, h⟩
  · rintro ⟨terminal, shift, production, reduce, ht, hshift, hp, hreduce, h⟩
    exact ⟨terminal, ht, shift, hshift, production, hp, reduce, hreduce, h⟩

namespace Reorders
variable (h : Reorders σ grammar reordered)
include h

theorem symm : Reorders σ.symm reordered grammar := by
  refine ⟨h.renumbers.symm, h.terminals.symm, fun p => ?_⟩
  rw [← h.productions, Equiv.apply_symm_apply]

theorem givesWay (way : grammar.GivesWay t target d) : reordered.GivesWay t target' (d.renumber σ) := by
  obtain ⟨settled⟩ := way
  obtain ⟨terminal, shift, production, reduce, ht, hshift, hp, hreduce, decided⟩ := settle?_eq_some_iff.mp settled
  exact .intro (settle?_eq_some_iff.mpr ⟨terminal, shift, production, reduce, h.terminals ▸ ht, hshift,
    (h.productions _).trans hp, hreduce, decide_eq_shift_congr decided⟩)

omit h in
theorem renumber_symm (d : Demand) : (d.renumber σ).renumber σ.symm = d := by
  cases d with
  | reduce p => exact congrArg Demand.reduce (σ.symm_apply_apply p)
  | shift | accept => rfl

theorem prevails (prevails : ∃ cell, grammar.Prevails t target cell d) :
    ∃ cell, reordered.Prevails t target' cell (d.renumber σ) := by
  obtain ⟨cell, settled, differs⟩ := prevails
  obtain ⟨terminal, shift, production, reduce, ht, hshift, hp, hreduce, rfl⟩ := settle?_eq_some_iff.mp settled
  refine ⟨_, .intro (settle?_eq_some_iff.mpr ⟨terminal, shift, production, reduce, h.terminals ▸ ht, hshift,
    (h.productions _).trans hp, hreduce, rfl⟩) fun way => differs (decide_eq_shift_congr way)⟩

/-- What competes in a state competes in its twin. -/
theorem mem_competing (twin : Cfg.IsTwin σ state state') (fits : state.items.Fits grammar.cfg)
    (fits' : state'.items.Fits reordered.cfg) (hd : d ∈ grammar.cfg.competing state t) :
    d.renumber σ ∈ reordered.cfg.competing state' t := by
  rw [Cfg.mem_competing_iff] at hd ⊢
  obtain ⟨hd, noShift⟩ := hd
  cases d with
  | shift next => exact absurd rfl (noShift next)
  | reduce p =>
    refine ⟨?_, nofun⟩
    obtain ⟨rule, hp, allows⟩ := (Cfg.reduce_mem_demands_iff_allows fits).mp hd
    exact (Cfg.reduce_mem_demands_iff_allows fits').mpr
      ⟨rule, (h.renumbers.rules p).trans hp, (twin.allows_iff _ _).mpr allows⟩
  | accept =>
    refine ⟨?_, nofun⟩
    obtain ⟨atEnd, has⟩ := (accept_mem_demands_iff_has fits).mp hd
    refine (accept_mem_demands_iff_has fits').mpr ⟨atEnd, ?_⟩
    have same : (Core.mk grammar.cfg.augmented 1).renumber σ = ⟨reordered.cfg.augmented, 1⟩ := by
      rw [Core.renumber, h.renumbers.augmented]
    exact same ▸ (twin.has_iff _).mpr has

section Twins
variable (twin : Cfg.IsTwin σ state state') (fits : state.items.Fits grammar.cfg)
  (fits' : state'.items.Fits reordered.cfg)
include twin fits fits'

theorem exists_of_mem_competing (hd : d ∈ reordered.cfg.competing state' t) :
    ∃ e ∈ grammar.cfg.competing state t, e.renumber σ = d := by
  refine ⟨d.renumber σ.symm, h.symm.mem_competing twin.symm fits' fits hd, ?_⟩
  exact renumber_symm (σ := σ.symm) d

theorem contested (contested : grammar.Contested t target (grammar.cfg.competing state t)) :
    reordered.Contested t target' (reordered.cfg.competing state' t) := by
  obtain ⟨⟨loser, hloser, way⟩, winner, hwinner, prevails, rest⟩ := contested
  refine ⟨⟨_, h.mem_competing twin fits fits' hloser, h.givesWay way⟩, _, h.mem_competing twin fits fits' hwinner,
    h.prevails prevails, fun other ho => ?_⟩
  obtain ⟨e, he, rfl⟩ := h.exists_of_mem_competing twin fits fits' ho
  exact (rest e he).imp (congrArg _) h.givesWay

theorem harmonious (same : shift?.isSome = shift?'.isSome)
    (harmonious : grammar.Harmonious t (grammar.cfg.competing state t) shift?) :
    reordered.Harmonious t (reordered.cfg.competing state' t) shift?' := by
  cases shift? with
  | none =>
    cases shift?' with
    | some => cases same
    | none =>
      intro d hd other ho
      obtain ⟨e, he, rfl⟩ := h.exists_of_mem_competing twin fits fits' hd
      obtain ⟨e', he', rfl⟩ := h.exists_of_mem_competing twin fits fits' ho
      exact congrArg _ (harmonious e he e' he')
  | some target =>
    cases shift?' with
    | none => cases same
    | some target' =>
      refine harmonious.imp (fun all other ho => ?_) fun ⟨d, hd, prevails, alone⟩ => ?_
      · obtain ⟨e, he, rfl⟩ := h.exists_of_mem_competing twin fits fits' ho
        exact h.givesWay (all e he)
      · refine ⟨_, h.mem_competing twin fits fits' hd, h.prevails prevails, fun other ho => ?_⟩
        obtain ⟨e, he, rfl⟩ := h.exists_of_mem_competing twin fits fits' ho
        exact congrArg _ (alone e he)

end Twins

end Reorders

/-- Whether no cell of the automaton is contested. -/
def IsCalm (grammar : Grammar α) (mergeCores : Bool) : Prop :=
  ∀ (i : Nat) state, (grammar.cfg.collection mergeCores)[i]? = some state → ∀ t target,
    state.transitions.lookup (.terminal t) = some target →
      ¬grammar.Contested t target (grammar.cfg.competing state t)

/-- The first table there is for a grammar without contested cells is not the only one. -/
theorem Reorders.exists_table (h : Reorders σ grammar reordered) (wf : grammar.cfg.WellFormed)
    (wf' : reordered.cfg.WellFormed) (calm : grammar.IsCalm mergeCores)
    (built : ∃ table, grammar.table mergeCores = .ok table) : ∃ table, reordered.table mergeCores = .ok table := by
  have automaton := Cfg.isAutomaton_collection wf mergeCores
  have automaton' := Cfg.isAutomaton_collection wf' mergeCores
  have nodup {cfg : Cfg} {states : List State} (automaton : cfg.IsAutomaton states) :
      ∀ state ∈ states, (state.transitions.map Prod.fst).Nodup := fun state hm =>
    let ⟨i, hs⟩ := List.mem_iff_getElem?.mp hm
    (automaton.sound i state hs).nodup
  refine (exists_tableOf_iff (nodup automaton')).mpr fun j state' hs' t bound => ?_
  obtain ⟨i, state, hs, twin⟩ := h.symm.renumbers.exists_twin wf' wf hs'
  have fits := (automaton.sound i state hs).isClosure.fits
  have fits' := (automaton'.sound j state' hs').isClosure.fits
  obtain ⟨cell, filled⟩ := (exists_tableOf_iff (nodup automaton)).mp built i state hs t (h.terminals ▸ bound)
  have harmonious := harmonious_of_cellOf Cfg.shift_not_mem_competing (calm i state hs t) filled
  refine (h.harmonious twin.symm fits fits' ?_ harmonious).exists_cellOf Cfg.shift_not_mem_competing
  rw [Bool.eq_iff_iff, Option.isSome_iff_exists, Option.isSome_iff_exists]
  exact twin.leads_iff _

end Grammar
end TableParsing
