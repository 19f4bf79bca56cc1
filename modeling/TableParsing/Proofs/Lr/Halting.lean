import Mathlib.Data.Fintype.Order
import TableParsing.Proofs.Lr.Exactness
import TableParsing.Proofs.Lr.Foresight
import TableParsing.Proofs.Table.Agreement

/-! # Reductions come to an end

A reduction takes the terminals of its production off the word, so there are finitely many that take any.  What could go
on forever are reductions of **silent** productions, which have no terminals.  If wherever a state asks for one of them
in front of a terminal it asks for nothing else (`Cfg.Undisputed`), then in front of that terminal no word is reduced
forever (`Cfg.halts`), whether the terminal may follow or not.

A state that asks for a reduction in front of a terminal is led to by **some** word for which the terminal is valid.
That word comes to where the terminal is taken, and on its way there is no choice where it is silent.  Since reductions
look at no more than the top state, any other word with the same state is reduced in the same way until a reduction
takes symbols off that the state was led to by (`Settles.transfer`).  So the word is shorter then, or its latest symbol
has been **wrapped** into a non-terminal; and a symbol that could be wrapped into itself would be reduced forever behind
a word for which the terminal is valid. -/

namespace TableParsing

/-- Whether a production has no terminals. -/
def Rule.IsSilent (rule : Rule) : Prop := ∀ t, .terminal t ∉ rule.symbols

namespace Cfg
variable {cfg : Cfg} {states : List Collection.State} {state : Collection.State} {word next front other : List Symbol}
  {rule : Rule} {i p t : Nat}

/-! ## One thing at a time -/

theorem reduce_mem_of_allows (hp : cfg.rules[p]? = some rule)
    (allows : state.items.Allows ⟨p, rule.symbols.length⟩ t) : (t, .reduce p) ∈ cfg.demands state := by
  obtain ⟨item, hm, hcore, ht⟩ := allows
  refine reduce_mem_demands.mpr ⟨item, hm, by rw [hcore], ?_, ?_, ht⟩
  · rw [hcore, isComplete, symbolsOf_rule hp]
    exact decide_eq_true (Nat.le_refl _)
  · rw [resultOf?_eq_some_iff.mpr ⟨rule, hp, rfl⟩]
    rfl

theorem accept_mem_of_has (has : state.items.Has ⟨cfg.augmented, 1⟩) :
    (endTerminal, .accept) ∈ cfg.demands state := by
  obtain ⟨item, hm, hcore⟩ := state.items.has_iff.mp has
  refine accept_mem_demands.mpr ⟨rfl, item, hm, ?_, ?_⟩
  · rw [hcore, isComplete, symbolsOf_augmented]
    rfl
  · rw [hcore, resultOf?, augmented, Array.getElem?_eq_none (Nat.le_refl _)]
    rfl

theorem shift_mem_of_lookup {target : Nat} (leads : state.transitions.lookup (.terminal t) = some target) :
    (t, .shift target) ∈ cfg.demands state := shift_mem_demands.mpr (mem_of_lookup_eq_some leads)

/-- Whether in front of a terminal a state that asks for the reduction of a silent production asks for nothing else. -/
def Undisputed (cfg : Cfg) (states : List Collection.State) (t : Nat) : Prop :=
  ∀ state ∈ states, ∀ (p : Nat) (rule : Rule), cfg.rules[p]? = some rule → rule.IsSilent →
    (t, .reduce p) ∈ cfg.demands state → ∀ d, (t, d) ∈ cfg.demands state → d = .reduce p

theorem undisputed_of_agree (agree : ∀ state ∈ states, Agree (cfg.demands state)) : cfg.Undisputed states t :=
  fun state hm _ _ _ _ reduce d hd => agree state hm t d _ hd reduce

section Agreement
variable (agree : ∀ state ∈ states, Agree (cfg.demands state))
include agree

/-- There is one way to reduce a word. -/
theorem Reduces.unique (h : cfg.Reduces states t word next) (h' : cfg.Reduces states t word other) : next = other := by
  obtain ⟨after, hs, hp, allows⟩ := h
  obtain ⟨after', hs', hp', allows'⟩ := h'
  cases after.symm.trans after'
  cases hs.symm.trans hs'
  cases agree _ (List.mem_of_getElem? hs) t _ _ (reduce_mem_of_allows hp allows) (reduce_mem_of_allows hp' allows')
  cases hp.symm.trans hp'
  rfl

/-- Nothing is reduced where a terminal is taken. -/
theorem Acts.not_reduces (acts : cfg.Acts states t word) : ¬cfg.Reduces states t word next := by
  rintro ⟨after, hs, hp, allows⟩
  obtain ⟨j, state, after', hs', acts⟩ := acts
  cases after.symm.trans after'
  cases hs.symm.trans hs'
  have reduces := reduce_mem_of_allows hp allows
  have one := agree _ (List.mem_of_getElem? hs)
  rcases acts with ⟨target, leads⟩ | ⟨rfl, has⟩
  · cases one t _ _ reduces (shift_mem_of_lookup leads)
  · cases one _ _ _ reduces (accept_mem_of_has has)

end Agreement

/-! ## Silent reductions -/

/-- How an automaton reduces a word by a silent production, the latest symbol first, in front of a terminal. -/
inductive ReducesSilently (cfg : Cfg) (states : List Collection.State) (t : Nat) (word : List Symbol) :
    List Symbol → Prop
  | intro {i p : Nat} {state : Collection.State} {rule : Rule} (after : stateAfter states word = some i)
      (hs : states[i]? = some state) (hp : cfg.rules[p]? = some rule) (silent : rule.IsSilent)
      (allows : state.items.Allows ⟨p, rule.symbols.length⟩ t) :
      ReducesSilently cfg states t word (.nonTerminal rule.result :: word.drop rule.symbols.length)

/-- The number of terminals in a word. -/
def loudness (word : List Symbol) : Nat := word.countP fun symbol => symbol matches .terminal _

theorem loudness_append (word other : List Symbol) : loudness (word ++ other) = loudness word + loudness other :=
  List.countP_append

theorem loudness_nonTerminal_cons (n : Nat) (word : List Symbol) : loudness (.nonTerminal n :: word) = loudness word :=
  List.countP_cons_of_neg nofun

theorem isSilent_iff : rule.IsSilent ↔ loudness rule.symbols = 0 := by
  rw [loudness, List.countP_eq_zero, Rule.IsSilent]
  constructor
  · intro silent symbol hm
    cases symbol with
    | terminal t => exact absurd hm (silent t)
    | nonTerminal n => exact nofun
  · exact fun none t hm => none _ hm rfl

/-- **A reduction is silent, or it takes terminals off.** -/
theorem Reduces.silently_or_quieter (automaton : cfg.IsAutomaton states) (h : cfg.Reduces states t word next) :
    cfg.ReducesSilently states t word next ∧ loudness next = loudness word ∨ loudness next < loudness word := by
  obtain @⟨i, p, state, rule, after, hs, hp, allows⟩ := h
  obtain ⟨state', hs', follows⟩ := automaton.follows after
  cases hs.symm.trans hs'
  obtain ⟨base, split, -⟩ := ((follows.has_iff _).mp allows.has).exists_base
  rw [take_symbolsOf hp] at split
  have count : loudness word = loudness rule.symbols + loudness base := by
    rw [split, loudness_append]
    exact congrArg (· + _) List.countP_reverse
  have rest : loudness (.nonTerminal rule.result :: word.drop rule.symbols.length) = loudness base := by
    rw [loudness_nonTerminal_cons, split, List.drop_left' List.length_reverse]
  rw [rest, count]
  by_cases silent : loudness rule.symbols = 0
  · exact .inl ⟨.intro after hs hp (isSilent_iff.mpr silent) allows, by omega⟩
  · exact .inr (by omega)

theorem loudness_le (automaton : cfg.IsAutomaton states) (h : Relation.TransGen (cfg.Reduces states t) word next) :
    loudness next ≤ loudness word := by
  induction h with
  | single step => exact (step.silently_or_quieter automaton).elim (·.2.le) Nat.le_of_lt
  | tail _ step ih => exact ((step.silently_or_quieter automaton).elim (·.2.le) Nat.le_of_lt).trans ih

/-- Reductions that take no terminals off are silent. -/
theorem reducesSilently_of_loudness_le (automaton : cfg.IsAutomaton states)
    (h : Relation.TransGen (cfg.Reduces states t) word next) (le : loudness word ≤ loudness next) :
    Relation.TransGen (cfg.ReducesSilently states t) word next := by
  induction h with
  | single step =>
    rcases step.silently_or_quieter automaton with ⟨silently, -⟩ | lt
    · exact .single silently
    · omega
  | tail steps step ih =>
    have before := loudness_le automaton steps
    rcases step.silently_or_quieter automaton with ⟨silently, same⟩ | lt
    · exact .tail (ih (by omega)) silently
    · omega

section Undisputed
variable (undisputed : cfg.Undisputed states t)
include undisputed

/-- Beside a silent reduction there is no other. -/
theorem ReducesSilently.unique (h : cfg.ReducesSilently states t word next) (h' : cfg.Reduces states t word other) :
    next = other := by
  obtain ⟨after, hs, hp, silent, allows⟩ := h
  obtain ⟨after', hs', hp', allows'⟩ := h'
  cases after.symm.trans after'
  cases hs.symm.trans hs'
  have reduces := reduce_mem_of_allows hp allows
  cases undisputed _ (List.mem_of_getElem? hs) _ _ hp silent reduces _ (reduce_mem_of_allows hp' allows')
  cases hp.symm.trans hp'
  rfl

/-- Nothing is reduced silently where a terminal is taken. -/
theorem Acts.not_reducesSilently (acts : cfg.Acts states t word) : ¬cfg.ReducesSilently states t word next := by
  rintro ⟨after, hs, hp, silent, allows⟩
  obtain ⟨j, state, after', hs', acts⟩ := acts
  cases after.symm.trans after'
  cases hs.symm.trans hs'
  have one := undisputed _ (List.mem_of_getElem? hs) _ _ hp silent (reduce_mem_of_allows hp allows)
  rcases acts with ⟨target, leads⟩ | ⟨rfl, has⟩
  · cases one _ (shift_mem_of_lookup leads)
  · cases one _ (accept_mem_of_has has)

end Undisputed

/-! ## Halting -/

/-- Whether a word is not reduced forever in front of a terminal. -/
def Halts (cfg : Cfg) (states : List Collection.State) (t : Nat) : List Symbol → Prop :=
  Acc fun next word => cfg.Reduces states t word next

/-- Whether a word is not reduced silently forever in front of a terminal. -/
def Settles (cfg : Cfg) (states : List Collection.State) (t : Nat) : List Symbol → Prop :=
  Acc fun next word => cfg.ReducesSilently states t word next

theorem Settles.tail (h : cfg.Settles states t word)
    (reduces : Relation.ReflTransGen (cfg.ReducesSilently states t) word next) : cfg.Settles states t next := by
  induction reduces with
  | refl => exact h
  | tail _ step ih => exact ih.inv step

theorem Settles.not_cyclic (h : cfg.Settles states t word) :
    ¬Relation.TransGen (cfg.ReducesSilently states t) word word := by
  induction h with
  | intro word _ ih =>
    intro cycle
    obtain ⟨next, step, back⟩ := Relation.TransGen.head'_iff.mp cycle
    exact ih next step (.tail' back step)

/-- What comes to where the terminal is taken settles there. -/
theorem ComesTo.settles (undisputed : cfg.Undisputed states t) (comes : cfg.ComesTo states t word) :
    cfg.Settles states t word := by
  obtain ⟨last, reduces, acts⟩ := comes
  induction reduces using Relation.ReflTransGen.head_induction_on with
  | refl => exact .intro _ fun next step => absurd step (acts.not_reducesSilently undisputed)
  | head step _ ih => exact .intro _ fun next step' => step'.unique undisputed step ▸ ih

/-! ## Wrapping -/

/-- Whether some symbols are what a production begins with, in front of a terminal that it is valid with, and the rest
of it can vanish. -/
inductive Wraps (cfg : Cfg) (t : Nat) (taken : List Symbol) : Nat → Prop
  | intro {base rest : List Symbol} {p : Nat} {rule : Rule} (hp : cfg.rules[p]? = some rule)
      (hsymbols : rule.symbols = taken ++ rest) (vanishes : cfg.Vanishes rest) (valid : cfg.Valid base ⟨p, 0⟩ t) :
      Wraps cfg t taken rule.result

/-- Whether a non-terminal is wrapped into another one. -/
def WrapsInto (cfg : Cfg) (t a b : Nat) : Prop := cfg.Wraps t [.nonTerminal a] b

section Cycles
variable {base rest : List Symbol} {a b : Nat} (wf : cfg.WellFormed) (automaton : cfg.IsAutomaton states)
include wf automaton

/-- A non-terminal is wrapped where the production is valid. -/
theorem Valid.wraps (valid : cfg.Valid base ⟨p, 0⟩ t) (hp : cfg.rules[p]? = some rule)
    (hsymbols : rule.symbols = .nonTerminal a :: rest) (vanishes : cfg.Vanishes rest) :
    Relation.TransGen (cfg.Reduces states t) (.nonTerminal a :: base) (.nonTerminal rule.result :: base) := by
  have hahead : cfg.ahead ⟨p, 0⟩ = [.nonTerminal a] ++ rest := (ahead_zero hp).trans hsymbols
  have reduces := valid.reduces_rest wf automaton hahead vanishes
  rw [ahead_zero hp] at reduces
  exact .tail' reduces (valid.reduces automaton hp)

/-- What is wrapped step by step is wrapped behind every word where the last production is valid. -/
theorem reduces_of_wrapsInto (h : Relation.TransGen (cfg.WrapsInto t) a b)
    (valid : ∀ q other, cfg.rules[q]? = some other → other.result = b → cfg.Valid base ⟨q, 0⟩ t) :
    Relation.TransGen (cfg.Reduces states t) (.nonTerminal a :: base) (.nonTerminal b :: base) := by
  induction h with
  | single h =>
    obtain ⟨hp, hsymbols, vanishes, -⟩ := h
    exact (valid _ _ hp rfl).wraps wf automaton hp hsymbols vanishes
  | @tail b c _ h ih =>
    obtain ⟨hp, hsymbols, vanishes, -⟩ := h
    have last := valid _ _ hp rfl
    have hahead := (ahead_zero hp).trans hsymbols
    -- the productions of what is wrapped are valid there, too
    refine .trans (ih fun q other hq hb => ?_) (last.wraps wf automaton hp hsymbols vanishes)
    obtain ⟨next, behind⟩ := next_of_ahead hahead
    exact last.valid_of_vanishes wf hq (hb ▸ next) (behind ▸ vanishes)

/-- **No non-terminal is wrapped into itself.** -/
theorem not_wrapsInto_self (undisputed : cfg.Undisputed states t) : ¬Relation.TransGen (cfg.WrapsInto t) a a := by
  intro cycle
  obtain ⟨b, -, h⟩ := Relation.TransGen.tail'_iff.mp cycle
  obtain @⟨base, rest, p, rule, hp, hsymbols, vanishes, valid⟩ := h
  -- wrapping takes no terminals off
  have silently {a b : Nat} (reduces : Relation.TransGen (cfg.Reduces states t) (.nonTerminal a :: base)
      (.nonTerminal b :: base)) :
      Relation.TransGen (cfg.ReducesSilently states t) (.nonTerminal a :: base) (.nonTerminal b :: base) :=
    reducesSilently_of_loudness_le automaton reduces (by rw [loudness_nonTerminal_cons, loudness_nonTerminal_cons])
  have hahead : cfg.ahead ⟨p, 0⟩ = [.nonTerminal b] ++ rest := (ahead_zero hp).trans hsymbols
  have settles := ((valid.over hahead).comesTo wf automaton (ahead_over hahead ▸ vanishes)).settles undisputed
  have wrapped := settles.tail (silently (valid.wraps wf automaton hp hsymbols vanishes)).to_reflTransGen
  refine wrapped.not_cyclic (silently (reduces_of_wrapsInto wf automaton cycle fun q other hq same => ?_))
  exact valid.sibling hp hq same

/-- So a way of wrapping comes to an end. -/
theorem wellFounded_wrapsInto (undisputed : cfg.Undisputed states t) :
    WellFounded fun b a : Fin cfg.nonTerminalCount => cfg.WrapsInto t a b := by
  let r (b a : Fin cfg.nonTerminalCount) : Prop := Relation.TransGen (cfg.WrapsInto t) a b
  have trans : IsTrans _ r := ⟨fun _ _ _ h h' => h'.trans h⟩
  have irrefl : Std.Irrefl r := ⟨fun a => not_wrapsInto_self wf automaton undisputed⟩
  exact Subrelation.wf (fun h => .single h) (Finite.wellFounded_of_trans_of_irrefl r)

end Cycles

/-! ## From word to word -/

theorem stateAfter_append_congr (same : stateAfter states word = stateAfter states other) (front : List Symbol) :
    stateAfter states (front ++ word) = stateAfter states (front ++ other) := by
  induction front with
  | nil => exact same
  | cons symbol front ih =>
    rw [List.cons_append, stateAfter, ih]
    rfl

/-- Of two words that are equal, one ends in the front of the other. -/
theorem append_eq_append_cases {a b c d : List Symbol} (h : a ++ b = c ++ d) :
    (∃ e, a = c ++ e ∧ d = e ++ b) ∨ ∃ e, e ≠ [] ∧ c = a ++ e ∧ b = e ++ d := by
  rcases List.append_eq_append_iff.mp h with ⟨e, rfl, rfl⟩ | ⟨e, rfl, rfl⟩
  · cases e with
    | nil => exact .inl ⟨[], by simp⟩
    | cons symbol e => exact .inr ⟨symbol :: e, nofun, rfl, rfl⟩
  · exact .inl ⟨e, rfl, rfl⟩

section Collection
variable {mergeCores : Bool} (wf : cfg.WellFormed)
include wf

/-- **How far a word is reduced silently depends on the state** that it leads to, and on the words that wrapping its
latest symbols makes. -/
theorem Settles.transfer (h : cfg.Settles (cfg.collection mergeCores) t (front ++ other))
    (same : stateAfter (cfg.collection mergeCores) word = stateAfter (cfg.collection mergeCores) other)
    (vanishes : cfg.Vanishes front.reverse)
    (wrapped : ∀ taken kept b, taken ≠ [] → word = taken.reverse ++ kept → cfg.Wraps t taken b →
      cfg.Settles (cfg.collection mergeCores) t (.nonTerminal b :: kept)) :
    cfg.Settles (cfg.collection mergeCores) t (front ++ word) := by
  have automaton := isAutomaton_collection wf mergeCores
  generalize hw : front ++ other = w at h
  induction h generalizing front with
  | intro w _ ih =>
    subst hw
    refine .intro _ fun next step => ?_
    obtain @⟨i, p, state, rule, after, hs, hp, silent, allows⟩ := step
    obtain ⟨state', hs', follows⟩ := automaton.follows after
    cases hs.symm.trans hs'
    have viable := (follows.has_iff _).mp allows.has
    obtain ⟨base, split, -⟩ := viable.exists_base
    rw [take_symbolsOf hp] at split
    rw [split, List.drop_left' List.length_reverse]
    rcases append_eq_append_cases split with ⟨front', rfl, rfl⟩ | ⟨taken, nonempty, hfront, rfl⟩
    -- the production is made of what has come on top
    · rw [List.reverse_append, List.reverse_reverse, vanishes_append_iff] at vanishes
      have step := ReducesSilently.intro (stateAfter_append_congr same _ ▸ after) hs hp silent allows
      rw [List.append_assoc, List.drop_left' List.length_reverse, ← List.append_assoc] at step
      change cfg.Settles _ t ((.nonTerminal rule.result :: front') ++ word)
      refine ih _ step ?_ rfl
      rw [List.reverse_cons]
      exact vanishes.1.append (.cons hp vanishes.2 .nil)
    -- the production takes off symbols of the word
    · obtain ⟨_, -, valid⟩ := exists_valid_after wf after hs allows
      obtain ⟨base', -, valid⟩ := valid.exists_base
      have hsymbols : rule.symbols = taken.reverse ++ front.reverse := by
        rw [← List.reverse_append, ← hfront, List.reverse_reverse]
      exact wrapped taken.reverse base rule.result (List.reverse_ne_nil_iff.mpr nonempty)
        (by rw [List.reverse_reverse]) (.intro hp hsymbols vanishes valid)

variable (undisputed : cfg.Undisputed (cfg.collection mergeCores) t)
include undisputed

/-- A word settles if what wrapping makes of it does. -/
theorem settles_of_wrapped (wrapped : ∀ taken kept b, taken ≠ [] → word = taken.reverse ++ kept →
      cfg.Wraps t taken b → cfg.Settles (cfg.collection mergeCores) t (.nonTerminal b :: kept)) :
    cfg.Settles (cfg.collection mergeCores) t word := by
  have automaton := isAutomaton_collection wf mergeCores
  by_cases reduced : ∃ next, cfg.ReducesSilently (cfg.collection mergeCores) t word next
  · obtain ⟨next, step⟩ := reduced
    obtain @⟨i, p, state, rule, after, hs, hp, silent, allows⟩ := step
    -- there is a word with the same state for which the terminal is valid, and that one settles
    obtain ⟨other, there, valid⟩ := exists_valid_after wf after hs allows
    have comes := valid.comesTo wf automaton (ahead_length hp ▸ .nil)
    have settles : cfg.Settles (cfg.collection mergeCores) t ([] ++ other) := comes.settles undisputed
    exact settles.transfer wf (after.trans there.symm) .nil wrapped
  · exact .intro _ fun next step => absurd ⟨next, step⟩ reduced

/-- A word settles if all shorter ones do, and those in which its latest symbol is wrapped. -/
theorem settles_of_shorter
    (shorter : ∀ other, other.length < word.length → cfg.Settles (cfg.collection mergeCores) t other)
    (wrapped : ∀ symbol kept b, word = symbol :: kept → cfg.Wraps t [symbol] b →
      cfg.Settles (cfg.collection mergeCores) t (.nonTerminal b :: kept)) :
    cfg.Settles (cfg.collection mergeCores) t word := by
  refine settles_of_wrapped wf undisputed fun taken kept b nonempty hword wraps => ?_
  match taken, nonempty with
  | [symbol], _ => exact wrapped symbol kept b hword wraps
  | first :: second :: taken, _ =>
    refine shorter _ ?_
    rw [hword, List.length_append, List.length_reverse, List.length_cons, List.length_cons, List.length_cons]
    omega

theorem settles (word : List Symbol) : cfg.Settles (cfg.collection mergeCores) t word := by
  induction hn : word.length using Nat.strong_induction_on generalizing word with
  | _ n shorter =>
    have shorter {word : List Symbol} (hlt : word.length < n) := shorter word.length hlt word rfl
    -- a non-terminal on top is wrapped only finitely often, any other symbol is wrapped into a non-terminal
    have nonTerminal (a : Fin cfg.nonTerminalCount) (kept : List Symbol) (hn : kept.length + 1 = n) :
        cfg.Settles (cfg.collection mergeCores) t (.nonTerminal a :: kept) := by
      induction a using (wellFounded_wrapsInto wf (isAutomaton_collection wf mergeCores) undisputed).induction with
      | _ a ih =>
        refine settles_of_shorter wf undisputed (fun other hlt => shorter (hn ▸ hlt))
          fun symbol kept' b hword wraps => ?_
        cases hword
        have bound : b < cfg.nonTerminalCount := by
          obtain ⟨hp, -⟩ := wraps
          exact wf.result_lt _ (Array.mem_of_getElem? hp)
        exact ih ⟨b, bound⟩ wraps
    refine settles_of_shorter wf undisputed (fun other hlt => shorter (hn ▸ hlt)) fun symbol kept b hword wraps => ?_
    subst hword
    obtain ⟨hp, -⟩ := wraps
    exact nonTerminal ⟨_, wf.result_lt _ (Array.mem_of_getElem? hp)⟩ kept hn

/-- **No word is reduced forever in front of a terminal**, if no silent reduction is asked for beside anything else. -/
theorem halts (word : List Symbol) : cfg.Halts (cfg.collection mergeCores) t word := by
  have automaton := isAutomaton_collection wf mergeCores
  induction hn : loudness word using Nat.strong_induction_on generalizing word with
  | _ n quieter =>
    have settles := settles wf undisputed word
    induction settles with
    | intro word _ ih =>
      refine .intro _ fun next step => ?_
      rcases step.silently_or_quieter automaton with ⟨silently, same⟩ | lt
      · exact ih next silently (same.trans hn)
      · exact quieter _ (hn ▸ lt) next rfl

end Collection
end Cfg
end TableParsing
