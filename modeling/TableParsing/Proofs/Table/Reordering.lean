import TableParsing.Proofs.Lr.Listing
import TableParsing.Proofs.Table.Chart

/-! # Productions in another order

A grammar is the same in every order of its productions, but not every order has tables.  **It is the contested cells
that make the difference** (`order_matters_iff_contested`): a cell in which one reduction prevails over the shift and
others give way to it is filled if the one that prevails comes last, and is a conflict of two reductions otherwise.
Where no cell is contested, all orders have tables or none has.

Of the two orders of `crossing` one has tables and the other does not. -/

namespace TableParsing

open Collection (State)

namespace Grammar
variable {α : Type} {grammar reordered : Grammar α} {mergeCores : Bool} {t target : Nat} {ds : List Demand}

theorem Harmonious.not_contested (h : grammar.Harmonious t ds (some target)) : ¬grammar.Contested t target ds := by
  rintro ⟨⟨loser, hloser, way⟩, winner, hwinner, ⟨cell, prevails⟩, -⟩
  rcases h with all | ⟨d, -, -, same⟩
  · exact prevails.not_givesWay (all winner hwinner)
  · rw [same loser hloser, ← same winner hwinner] at way
    exact prevails.not_givesWay way

/-- Where no cell is contested, none is in another order. -/
theorem Reorders.isCalm {σ : Equiv.Perm Nat} (h : Reorders σ grammar reordered) (wf : grammar.cfg.WellFormed)
    (wf' : reordered.cfg.WellFormed) (calm : grammar.IsCalm mergeCores) : reordered.IsCalm mergeCores := by
  intro j state' hs' t target' leads' contested
  obtain ⟨i, state, hs, twin⟩ := h.symm.renumbers.exists_twin wf' wf hs'
  have fits := ((Cfg.isAutomaton_collection wf mergeCores).sound i state hs).isClosure.fits
  have fits' := ((Cfg.isAutomaton_collection wf' mergeCores).sound j state' hs').isClosure.fits
  obtain ⟨target, leads⟩ := (twin.leads_iff _).mpr ⟨target', leads'⟩
  exact calm i state hs t target leads (h.symm.contested twin fits' fits contested)

/-- A grammar without contested cells has tables in another order exactly if it has tables. -/
theorem IsReordering.exists_table_iff (h : reordered.IsReordering grammar) (wf : grammar.cfg.WellFormed)
    (calm : grammar.IsCalm mergeCores) :
    (∃ table, reordered.table mergeCores = .ok table) ↔ ∃ table, grammar.table mergeCores = .ok table := by
  obtain ⟨σ, reorders⟩ := h.exists_reorders
  have wf' := h.wellFormed wf
  exact ⟨reorders.symm.exists_table wf' wf (reorders.isCalm wf wf' calm), reorders.exists_table wf wf' calm⟩

end Grammar

/-! ## Two reductions that cross a shift -/

/-- The grammar of the texts t, ty and tz, in which what stands in front of ty and tz is empty.  The letters bind the
more tightly the earlier they come in ytz. -/
def crossing (productions : List (Production Unit)) : Grammar Unit where
  terminals := [⟨"$end", .reserved, none⟩, ⟨"error", .reserved, none⟩, ⟨"t", .literal "t", some ⟨2, .left⟩⟩,
    ⟨"y", .literal "y", some ⟨3, .left⟩⟩, ⟨"z", .literal "z", some ⟨1, .left⟩⟩]
  nonTerminals := ["s", "a", "b"]
  productions := productions
  start := 0
  ignored := []
  lexerOptions := {}

namespace crossing

/-- A production that makes nothing of its values. -/
def rule (result : Nat) (symbols : List Symbol) (precedence : Precedence) : Production Unit :=
  ⟨result, symbols, .ofValues fun _ => (), some precedence⟩

/-- The texts ty and tz. -/
def pair : List (Production Unit) :=
  [rule 0 [.nonTerminal 1, .terminal 2, .terminal 3] ⟨3, .left⟩,
    rule 0 [.nonTerminal 2, .terminal 2, .terminal 4] ⟨1, .left⟩]

/-- The text t, and what is empty, with the levels of precedence that it is lent. -/
def others (a b : Nat) : List (Production Unit) :=
  [rule 0 [.terminal 2] ⟨2, .left⟩, rule 1 [] ⟨a, .left⟩, rule 2 [] ⟨b, .left⟩]

/-- The draft with the letters and the non-terminals. -/
def letters : GrammarDraft Unit :=
  let draft := ((({} : GrammarDraft Unit).literal "t").1.literal "y").1.literal "z" |>.1
  let draft := ((draft.group .left [4]).group .left [2]).group .left [3]
  ((draft.nonTerminal "s").1.nonTerminal "a").1.nonTerminal "b" |>.1

/-- The draft with the text t and what is empty behind the other productions, and the start symbol. -/
def finished (draft : GrammarDraft Unit) : GrammarDraft Unit :=
  let draft := (draft.production 0 [.literal "t"] (.ofValues fun _ => ())).1
  let draft := ((draft.production 1 [] (.ofValues fun _ => ())).1.production 2 [] (.ofValues fun _ => ())).1
  { (draft.lendPrecedence 3 3).lendPrecedence 4 4 with start := some 0 }

theorem declared_letters : letters.Declared :=
  .nonTerminal (.nonTerminal (.nonTerminal (.group (.group (.group (.literal (.literal (.literal .empty _) _) _)
    _ _) _ _) _ _) _) _) _

theorem declared_finished {draft : GrammarDraft Unit} (h : draft.Declared) : (finished draft).Declared :=
  .start (.lendPrecedence (.lendPrecedence (.production (.production (.production h _ _ _) _ _ _) _ _ _) _ _) _ _) _

theorem declared : (crossing (pair ++ others 3 1)).Declared :=
  ⟨_, declared_finished (.production (.production declared_letters
    0 [.nonTerminal 1, .literal "t", .literal "y"] (.ofValues fun _ => ()))
    0 [.nonTerminal 2, .literal "t", .literal "z"] (.ofValues fun _ => ())), rfl⟩

theorem declared_reverse : (crossing (pair.reverse ++ others 3 1)).Declared :=
  ⟨_, declared_finished (.production (.production declared_letters
    0 [.nonTerminal 2, .literal "t", .literal "z"] (.ofValues fun _ => ()))
    0 [.nonTerminal 1, .literal "t", .literal "y"] (.ofValues fun _ => ())), rfl⟩

theorem isReordering (a b : Nat) :
    (crossing (pair.reverse ++ others a b)).IsReordering (crossing (pair ++ others a b)) :=
  ⟨rfl, rfl, rfl, .swap _ _ _⟩

/-- The grammar without names, actions and precedence. -/
def cfg : Cfg where
  terminalCount := 5
  nonTerminalCount := 3
  rules := #[⟨0, [.nonTerminal 1, .terminal 2, .terminal 3]⟩, ⟨0, [.nonTerminal 2, .terminal 2, .terminal 4]⟩,
    ⟨0, [.terminal 2]⟩, ⟨1, []⟩, ⟨2, []⟩]
  start := 0

/-- What the words of the grammar lead to. -/
def chart : Chart where
  rows := [[(⟨5, 0⟩, [0]), (⟨0, 0⟩, [0]), (⟨1, 0⟩, [0]), (⟨2, 0⟩, [0]), (⟨3, 0⟩, [2]), (⟨4, 0⟩, [2])],
    [(⟨5, 1⟩, [0])], [(⟨0, 1⟩, [0])], [(⟨1, 1⟩, [0])], [(⟨2, 1⟩, [0])], [(⟨0, 2⟩, [0])], [(⟨1, 2⟩, [0])],
    [(⟨0, 3⟩, [0])], [(⟨1, 3⟩, [0])]]
  moves := [((0, .nonTerminal 0), 1), ((0, .nonTerminal 1), 2), ((0, .nonTerminal 2), 3), ((0, .terminal 2), 4),
    ((2, .terminal 2), 5), ((3, .terminal 2), 6), ((5, .terminal 3), 7), ((6, .terminal 4), 8)]

theorem bounds_chart : chart.bounds cfg := by decide

theorem wellFormed : cfg.WellFormed :=
  have declared : (crossing (pair ++ others 3 1)).Declared := declared
  declared.wellFormed

/-- In the first place the letter t may be shifted, and what is empty may be reduced in front of it. -/
theorem settled_chart (a b : Nat) : ∀ place < chart.rows.length, ∀ t < 5, (place = 0 ∧ t = 2) ∨
    chart.settled (crossing (pair ++ others a b)) place t := by
  have settled : ∀ place < chart.rows.length, ∀ t < 5, (place = 0 ∧ t = 2) ∨
      (chart.demandsAt cfg place).all fun d => (chart.demandsAt cfg place).all fun e =>
        d.1 ≠ t || e.1 ≠ t || d.2 = e.2 := by decide
  refine fun place hp t ht => (settled place hp t ht).imp_right fun h => ?_
  refine List.all_eq_true.mpr fun d hd => List.all_eq_true.mpr fun e he => ?_
  have same := List.all_eq_true.mp (List.all_eq_true.mp h d hd) e he
  rw [Bool.or_eq_true] at same ⊢
  exact same.imp_right fun same => Bool.or_eq_true_iff.mpr (.inl same)

section States
variable {mergeCores : Bool} {i : Nat} {state : State} {a b : Nat}

/-- Only the first state is in the first place. -/
theorem eq_zero_of_describes (hs : (cfg.collection mergeCores)[i]? = some state)
    (describes : chart.Describes 0 state) : i = 0 := by
  have automaton := Cfg.isAutomaton_collection wellFormed mergeCores
  have unmoved : ∀ entry ∈ chart.row 0, entry.1.dot = 0 := by decide
  refine (automaton.moved i state hs).resolve_right fun ⟨symbol, ⟨core, hc⟩, moved⟩ => ?_
  obtain ⟨old, -, rfl⟩ := moved core hc
  obtain ⟨ts, hm⟩ := describes.has _ ((automaton.sound i state hs).isClosure.kernel_le.has _ hc)
  cases unmoved _ hm

/-- In the order `ty`, `tz` what is empty comes the other way round, the latest that is asked for first. -/
theorem competing_first (hs : (cfg.collection mergeCores)[0]? = some state) :
    cfg.competing state 2 = [.reduce 4, .reduce 3] := by
  rw [Cfg.competing, Cfg.items_first wellFormed hs, Cfg.items_closure, Cfg.items_startKernel]
  decide

theorem exists_cellAt_first (hs : (cfg.collection mergeCores)[0]? = some state) :
    ∃ cell, (crossing (pair ++ others 3 1)).cellAt 0 state 2 = .ok cell := by
  have automaton := Cfg.isAutomaton_collection wellFormed mergeCores
  have after : Cfg.stateAfter (cfg.collection mergeCores) [] = some 0 := rfl
  obtain ⟨start, hstart, follows⟩ := automaton.follows after
  cases hs.symm.trans hstart
  have viable : cfg.Viable [] ⟨2, 0⟩ := .expand .start rfl (by decide)
  obtain ⟨target, leads⟩ := (automaton.exists_lookup_iff hs follows.spells).mpr ⟨_, viable, rfl⟩
  have competing : (crossing (pair ++ others 3 1)).cfg.competing state 2 = _ := competing_first hs
  rw [Grammar.cellAt, competing, leads]
  exact ⟨_, rfl⟩

/-- The order `ty`, `tz` has tables. -/
theorem exists_table (mergeCores : Bool) : ∃ table, (crossing (pair ++ others 3 1)).table mergeCores = .ok table := by
  have automaton := Cfg.isAutomaton_collection wellFormed mergeCores
  refine (Grammar.exists_tableOf_iff fun state hm => ?_).mpr fun i state hs t bound => ?_
  · obtain ⟨i, hs⟩ := List.mem_iff_getElem?.mp hm
    exact (automaton.sound i state hs).nodup
  · obtain ⟨place, describes⟩ := Chart.exists_describes bounds_chart wellFormed hs
    rcases settled_chart 3 1 place (describes.place_lt wellFormed hs) t bound with ⟨rfl, rfl⟩ | settled
    · cases eq_zero_of_describes hs describes
      exact exists_cellAt_first hs
    · have harmonious := Chart.harmonious_of_settled (crossing (pair ++ others 3 1)) wellFormed hs
        describes settled
      exact harmonious.exists_cellOf Cfg.shift_not_mem_competing

/-- The other order does not. -/
theorem not_exists_table (mergeCores : Bool) :
    ¬∃ table, (crossing (pair.reverse ++ others 3 1)).table mergeCores = .ok table := by
  intro built
  have wf := (isReordering 3 1).wellFormed wellFormed
  have automaton := Cfg.isAutomaton_collection wf mergeCores
  obtain ⟨state, hs, -⟩ := automaton.start
  have nodup : ∀ state ∈ (crossing (pair.reverse ++ others 3 1)).cfg.collection mergeCores,
      (state.transitions.map Prod.fst).Nodup := fun state hm =>
    let ⟨i, hs⟩ := List.mem_iff_getElem?.mp hm
    (automaton.sound i state hs).nodup
  obtain ⟨cell, filled⟩ := (Grammar.exists_tableOf_iff nodup).mp built 0 state hs 2 (by decide)
  have competing : (crossing (pair.reverse ++ others 3 1)).cfg.competing state 2 = [.reduce 3, .reduce 4] := by
    rw [Cfg.competing, Cfg.items_first wf hs, Cfg.items_closure, Cfg.items_startKernel]
    decide
  rw [Grammar.cellAt, competing] at filled
  cases leads : state.transitions.lookup (.terminal 2) with
  | none =>
    rw [leads] at filled
    cases filled
  | some target =>
    rw [leads] at filled
    cases filled

/-- If both are lent the loosest level, nothing prevails. -/
theorem isCalm (mergeCores : Bool) : (crossing (pair ++ others 1 1)).IsCalm mergeCores := by
  intro i state hs t target leads contested
  have hs : (cfg.collection mergeCores)[i]? = some state := hs
  have automaton := Cfg.isAutomaton_collection wellFormed mergeCores
  obtain ⟨place, describes⟩ := Chart.exists_describes bounds_chart wellFormed hs
  have inside := describes.place_lt wellFormed hs
  obtain ⟨d, hd, ⟨cell, prevails⟩, -⟩ := contested.winner
  have charted := Chart.mem_demandsAt_of_competing (crossing (pair ++ others 1 1)) wellFormed hs describes hd
  have bound : t < 5 := by
    have shifted := Chart.mem_demandsAt wellFormed hs describes (Cfg.shift_mem_of_lookup leads)
    have letters : ∀ place < chart.rows.length, ∀ entry ∈ chart.demandsAt cfg place, entry.1 < 5 := by decide
    exact letters place inside _ shifted
  rcases settled_chart 1 1 place inside t bound with ⟨rfl, rfl⟩ | settled
  · have reduced : ∀ entry ∈ chart.demandsAt cfg 0, entry.1 = 2 →
        entry.2 = .shift 0 ∨ entry.2 = .reduce 3 ∨ entry.2 = .reduce 4 := by decide
    rcases reduced _ charted rfl with same | same | same <;> cases same
    · exact Cfg.shift_not_mem_competing 0 hd
    · exact prevails.not_givesWay (.intro rfl)
    · exact prevails.not_givesWay (.intro rfl)
  · have harmonious := Chart.harmonious_of_settled (crossing (pair ++ others 1 1)) wellFormed hs
      describes settled
    exact (leads ▸ harmonious).not_contested contested

end States

end crossing

variable {α : Type}

/-- **It is the contested cells that depend on the order of productions.**  The demands behind a shift come to the same
cell in every order exactly if they are not contested.  A grammar without contested cells has tables in every order of
its productions or in none. -/
theorem order_matters_iff_contested (grammar : Grammar α) (wf : grammar.cfg.WellFormed) :
    (∀ (i t : Nat) (shift? : Option Nat) (ds : List Demand), (∀ next, .shift next ∉ ds) →
      ((∀ others : List Demand, others.Perm ds →
          (grammar.cellOf i t shift? others).toOption = (grammar.cellOf i t shift? ds).toOption) ↔
        ∀ target, shift? = some target → ¬grammar.Contested t target ds)) ∧
    ∀ (mergeCores : Bool) (reordered : Grammar α), reordered.IsReordering grammar → grammar.IsCalm mergeCores →
      ((∃ table, reordered.table mergeCores = .ok table) ↔ ∃ table, grammar.table mergeCores = .ok table) :=
  ⟨fun _ _ _ _ noShift => Grammar.forall_perm_iff_calm noShift,
    fun _ _ reordering calm => reordering.exists_table_iff wf calm⟩

theorem order_matters_iff_contested_crossing : (crossing (crossing.pair ++ crossing.others 1 1)).cfg.WellFormed ∧
    (crossing (crossing.pair.reverse ++ crossing.others 1 1)).IsReordering
      (crossing (crossing.pair ++ crossing.others 1 1)) ∧
    (crossing (crossing.pair ++ crossing.others 1 1)).IsCalm true ∧
    ((∃ table, (crossing (crossing.pair.reverse ++ crossing.others 1 1)).table true = .ok table) ↔
      ∃ table, (crossing (crossing.pair ++ crossing.others 1 1)).table true = .ok table) :=
  ⟨crossing.wellFormed, crossing.isReordering 1 1, crossing.isCalm true,
    (order_matters_iff_contested (crossing (crossing.pair ++ crossing.others 1 1)) crossing.wellFormed).2 true _
      (crossing.isReordering 1 1) (crossing.isCalm true)⟩

/-- **Declaration order decides whether a grammar has tables**: of two orders of the same productions one has tables
and the other does not, whether cores are merged or not. -/
theorem order_decides_crossing : (crossing (crossing.pair ++ crossing.others 3 1)).Declared ∧
    (crossing (crossing.pair.reverse ++ crossing.others 3 1)).Declared ∧
    (crossing (crossing.pair.reverse ++ crossing.others 3 1)).IsReordering
      (crossing (crossing.pair ++ crossing.others 3 1)) ∧
    ∀ mergeCores, (∃ table, (crossing (crossing.pair ++ crossing.others 3 1)).table mergeCores = .ok table) ∧
      ¬∃ table, (crossing (crossing.pair.reverse ++ crossing.others 3 1)).table mergeCores = .ok table :=
  ⟨crossing.declared, crossing.declared_reverse, crossing.isReordering 3 1,
    fun mergeCores => ⟨crossing.exists_table mergeCores, crossing.not_exists_table mergeCores⟩⟩

end TableParsing
