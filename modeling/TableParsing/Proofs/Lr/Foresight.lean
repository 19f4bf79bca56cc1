import TableParsing.Proofs.Lr.Derivation
import TableParsing.Proofs.Lr.Prefix

/-! # What may follow is come to

In front of a terminal, an automaton reduces the word that it has come through (`Cfg.Reduces`), until it can take the
terminal or accept (`Cfg.Acts`).  **A terminal that is valid for the word is come to** (`Valid.comesTo`): what may be
empty is reduced to it, and where the terminal may follow a production there is a shorter way on behind its result.

Nothing is said of other reductions here.  An automaton that asks for one thing at a time makes no others. -/

namespace TableParsing

/-- The core with the dot moved over some symbols. -/
def Core.over (core : Core) (symbols : List Symbol) : Core := { core with dot := core.dot + symbols.length }

theorem Core.over_cons (core : Core) (symbol : Symbol) (symbols : List Symbol) :
    core.over (symbol :: symbols) = core.advance.over symbols := by
  have length : core.dot + (symbols.length + 1) = core.dot + 1 + symbols.length := by omega
  rw [Core.over, Core.over, advance, List.length_cons, length]

namespace Cfg
variable {cfg : Cfg} {word symbols rest : List Symbol} {core : Core} {symbol : Symbol} {rule : Rule} {p t : Nat}

/-- What stands behind the dot. -/
def ahead (cfg : Cfg) (core : Core) : List Symbol := (cfg.symbolsOf core.production).drop core.dot

theorem ahead_advance : cfg.ahead core.advance = cfg.behind core := rfl

theorem ahead_of_next (next : cfg.nextSymbol? core = some symbol) : cfg.ahead core = symbol :: cfg.behind core := by
  obtain ⟨bound, there⟩ := List.getElem?_eq_some_iff.mp next
  rw [ahead, behind, List.drop_eq_getElem_cons bound, there]

theorem next_of_ahead (h : cfg.ahead core = symbol :: rest) :
    cfg.nextSymbol? core = some symbol ∧ cfg.behind core = rest := by
  have next : cfg.nextSymbol? core = some symbol := by
    rw [nextSymbol?, ← List.head?_drop, ← ahead, h]
    rfl
  rw [ahead_of_next next] at h
  exact ⟨next, (List.cons.inj h).2⟩

theorem ahead_zero (hp : cfg.rules[p]? = some rule) : cfg.ahead ⟨p, 0⟩ = rule.symbols := symbolsOf_rule hp

theorem ahead_over (h : cfg.ahead core = symbols ++ rest) : cfg.ahead (core.over symbols) = rest := by
  rw [ahead, Core.over, ← List.drop_drop, ← ahead, h, List.drop_left]

theorem ahead_length (hp : cfg.rules[p]? = some rule) : cfg.ahead ⟨p, rule.symbols.length⟩ = [] := by
  rw [ahead, symbolsOf_rule hp, List.drop_length]

theorem take_symbolsOf (hp : cfg.rules[p]? = some rule) :
    (cfg.symbolsOf p).take rule.symbols.length = rule.symbols := by
  rw [symbolsOf_rule hp, List.take_length]

theorem mem_productionsOf_result (hp : cfg.rules[p]? = some rule) : p ∈ cfg.productionsOf rule.result :=
  mem_productionsOf.mpr (resultOf?_eq_some_iff.mpr ⟨rule, hp, rfl⟩)

/-! ## Dots move on and back -/

/-- What is kept when the dot moves over a symbol is kept when it moves over several. -/
theorem keeps_over {Q : List Symbol → Core → Prop} (advance : ∀ {word core symbol}, Q word core →
      cfg.nextSymbol? core = some symbol → Q (symbol :: word) core.advance)
    (h : Q word core) (hahead : cfg.ahead core = symbols ++ rest) :
    Q (symbols.reverse ++ word) (core.over symbols) := by
  induction symbols generalizing word core with
  | nil => exact h
  | cons symbol symbols ih =>
    obtain ⟨next, behind⟩ := next_of_ahead hahead
    rw [List.reverse_cons, List.append_assoc, Core.over_cons]
    exact ih (advance h next) (ahead_advance.trans behind)

theorem Viable.over (h : cfg.Viable word core) (hahead : cfg.ahead core = symbols ++ rest) :
    cfg.Viable (symbols.reverse ++ word) (core.over symbols) := keeps_over .advance h hahead

theorem Valid.over (h : cfg.Valid word core t) (hahead : cfg.ahead core = symbols ++ rest) :
    cfg.Valid (symbols.reverse ++ word) (core.over symbols) t :=
  keeps_over (Q := fun word core => cfg.Valid word core t) .advance h hahead

/-- A dot that has moved on was in front of the symbols that the word ends with. -/
theorem exists_base {Q : List Symbol → Core → Prop} (back : ∀ {word p dot}, Q word ⟨p, dot + 1⟩ →
      ∃ symbol rest, word = symbol :: rest ∧ cfg.nextSymbol? ⟨p, dot⟩ = some symbol ∧ Q rest ⟨p, dot⟩)
    {dot : Nat} (h : Q word ⟨p, dot⟩) :
    ∃ base, word = ((cfg.symbolsOf p).take dot).reverse ++ base ∧ Q base ⟨p, 0⟩ := by
  induction dot generalizing word with
  | zero => exact ⟨word, rfl, h⟩
  | succ dot ih =>
    obtain ⟨symbol, rest, rfl, next, h⟩ := back h
    obtain ⟨base, rfl, begun⟩ := ih h
    refine ⟨base, ?_, begun⟩
    rw [List.take_add_one, show (cfg.symbolsOf p)[dot]? = some symbol from next, Option.toList_some,
      List.reverse_append, List.append_assoc]
    rfl

theorem Viable.exists_base {dot : Nat} (h : cfg.Viable word ⟨p, dot⟩) :
    ∃ base, word = ((cfg.symbolsOf p).take dot).reverse ++ base ∧ cfg.Viable base ⟨p, 0⟩ := by
  refine Cfg.exists_base (fun {word p dot} h => ?_) h
  generalize hcore : (⟨p, dot + 1⟩ : Core) = core at h
  cases h with
  | start => cases congrArg Core.dot hcore
  | expand => cases congrArg Core.dot hcore
  | @advance rest old symbol h next =>
    obtain ⟨q, e⟩ := old
    cases hcore
    exact ⟨symbol, rest, rfl, next, h⟩

theorem Valid.exists_base {dot : Nat} (h : cfg.Valid word ⟨p, dot⟩ t) :
    ∃ base, word = ((cfg.symbolsOf p).take dot).reverse ++ base ∧ cfg.Valid base ⟨p, 0⟩ t := by
  refine Cfg.exists_base (Q := fun word core => cfg.Valid word core t) (fun {word p dot} h => ?_) h
  generalize hcore : (⟨p, dot + 1⟩ : Core) = core at h
  cases h with
  | start => cases congrArg Core.dot hcore
  | first => cases congrArg Core.dot hcore
  | pass => cases congrArg Core.dot hcore
  | @advance rest old symbol t h next =>
    obtain ⟨q, e⟩ := old
    cases hcore
    exact ⟨symbol, rest, rfl, next, h⟩

/-! ## What productions are valid with -/

theorem Viable.valid_of_starts (wf : cfg.WellFormed) (h : cfg.Viable word core) (hp : cfg.rules[p]? = some rule)
    (next : cfg.nextSymbol? core = some (.nonTerminal rule.result)) (starts : cfg.Starts (cfg.behind core) t) :
    cfg.Valid word ⟨p, 0⟩ t :=
  .first h next (mem_productionsOf_result hp) ((contains_firstOf_iff wf).mpr starts)

theorem Valid.valid_of_vanishes (wf : cfg.WellFormed) (h : cfg.Valid word core t) (hp : cfg.rules[p]? = some rule)
    (next : cfg.nextSymbol? core = some (.nonTerminal rule.result)) (vanishes : cfg.Vanishes (cfg.behind core)) :
    cfg.Valid word ⟨p, 0⟩ t :=
  .pass h next (mem_productionsOf_result hp) ((nullable_firstOf_iff wf).mpr vanishes)

/-- What is valid with one production is valid with all productions of the same non-terminal. -/
theorem Valid.sibling {q : Nat} {other : Rule} (h : cfg.Valid word ⟨p, 0⟩ t) (hp : cfg.rules[p]? = some rule)
    (hq : cfg.rules[q]? = some other) (same : other.result = rule.result) : cfg.Valid word ⟨q, 0⟩ t := by
  have asked {n : Nat} (hn : p ∈ cfg.productionsOf n) : q ∈ cfg.productionsOf n := by
    obtain ⟨rule', hp', rfl⟩ := resultOf?_eq_some_iff.mp (mem_productionsOf.mp hn)
    cases hp.symm.trans hp'
    exact same ▸ mem_productionsOf_result hq
  generalize hcore : (⟨p, 0⟩ : Core) = core at h
  cases h with
  | start =>
    cases hcore
    exact absurd (Array.getElem?_eq_some_iff.mp hp).1 (Nat.lt_irrefl _)
  | first h next hn ht =>
    cases hcore
    exact .first h next (asked hn) ht
  | pass h next hn nullable =>
    cases hcore
    exact .pass h next (asked hn) nullable
  | advance => cases congrArg Core.dot hcore

/-! ## Reductions -/

/-- How an automaton reduces a word, the latest symbol first, in front of a terminal. -/
inductive Reduces (cfg : Cfg) (states : List Collection.State) (t : Nat) (word : List Symbol) : List Symbol → Prop
  | intro {i p : Nat} {state : Collection.State} {rule : Rule} (after : stateAfter states word = some i)
      (hs : states[i]? = some state) (hp : cfg.rules[p]? = some rule)
      (allows : state.items.Allows ⟨p, rule.symbols.length⟩ t) :
      Reduces cfg states t word (.nonTerminal rule.result :: word.drop rule.symbols.length)

/-- Whether an automaton takes a terminal behind a word, or accepts in front of it. -/
def Acts (cfg : Cfg) (states : List Collection.State) (t : Nat) (word : List Symbol) : Prop :=
  ∃ i state, stateAfter states word = some i ∧ states[i]? = some state ∧
    ((∃ target, state.transitions.lookup (.terminal t) = some target) ∨
      t = endTerminal ∧ state.items.Has ⟨cfg.augmented, 1⟩)

/-- Whether reductions come to where the terminal is taken, or the word accepted. -/
def ComesTo (cfg : Cfg) (states : List Collection.State) (t : Nat) (word : List Symbol) : Prop :=
  ∃ last, Relation.ReflTransGen (cfg.Reduces states t) word last ∧ cfg.Acts states t last

section Automaton
variable {states : List Collection.State} (wf : cfg.WellFormed) (automaton : cfg.IsAutomaton states)

theorem ComesTo.head {next : List Symbol} (h : Relation.ReflTransGen (cfg.Reduces states t) word next)
    (comes : cfg.ComesTo states t next) : cfg.ComesTo states t word :=
  comes.imp fun _ ⟨reduces, acts⟩ => ⟨h.trans reduces, acts⟩

include automaton

/-- A production that is valid in front of a terminal is reduced there. -/
theorem Valid.reduces (h : cfg.Valid word ⟨p, 0⟩ t) (hp : cfg.rules[p]? = some rule) :
    cfg.Reduces states t (rule.symbols.reverse ++ word) (.nonTerminal rule.result :: word) := by
  have whole : cfg.ahead ⟨p, 0⟩ = rule.symbols ++ [] := by rw [ahead_zero hp, List.append_nil]
  have complete := h.over whole
  rw [Core.over, Nat.zero_add] at complete
  obtain ⟨i, state, after, hs, follows⟩ := automaton.exists_state complete.viable
  have reduces := Reduces.intro after hs hp (follows.allows _ _ complete)
  rwa [List.drop_left' List.length_reverse] at reduces

theorem Viable.acts_of_next (h : cfg.Viable word core) (next : cfg.nextSymbol? core = some (.terminal t)) :
    cfg.Acts states t word := by
  obtain ⟨i, state, after, hs, follows⟩ := automaton.exists_state h
  exact ⟨i, state, after, hs, .inl ((automaton.exists_lookup_iff hs follows.spells).mpr ⟨core, h, next⟩)⟩

include wf

/-- **What can vanish is reduced from nothing**, if the terminal may come behind it. -/
theorem Vanishes.reduces (vanishes : cfg.Vanishes symbols) (h : cfg.Viable word core)
    (hahead : cfg.ahead core = symbols ++ rest)
    (expected : cfg.Starts rest t ∨ cfg.Vanishes rest ∧ cfg.Valid word core t) :
    Relation.ReflTransGen (cfg.Reduces states t) word (symbols.reverse ++ word) := by
  induction vanishes generalizing word core rest with
  | nil => exact .refl
  | @cons p rule symbols hp _ vanishes inside behind =>
    obtain ⟨next, hbehind⟩ := next_of_ahead hahead
    have valid : cfg.Valid word ⟨p, 0⟩ t := by
      rcases expected with starts | ⟨vanishes', valid⟩
      · exact h.valid_of_starts wf hp next (hbehind ▸ vanishes.starts_append starts)
      · exact valid.valid_of_vanishes wf hp next (hbehind ▸ vanishes.append vanishes')
    -- first what the production consists of, then the production, then the symbols behind it
    have whole : cfg.ahead ⟨p, 0⟩ = rule.symbols ++ [] := by rw [ahead_zero hp, List.append_nil]
    have first := inside (h.expand next (mem_productionsOf_result hp)) whole (.inr ⟨.nil, valid⟩)
    have then_ := behind (h.advance next) (ahead_advance.trans hbehind)
      (expected.imp_right fun ⟨vanishes', valid⟩ => ⟨vanishes', valid.advance next⟩)
    rw [List.reverse_cons, List.append_assoc]
    exact (first.tail (valid.reduces automaton hp)).trans then_

/-- A terminal that starts what stands behind the dot is come to. -/
theorem Viable.comesTo (starts : cfg.Starts symbols t) (h : cfg.Viable word core) (hahead : cfg.ahead core = symbols) :
    cfg.ComesTo states t word := by
  induction starts generalizing word core with
  | terminal => exact ⟨word, .refl, h.acts_of_next automaton (next_of_ahead hahead).1⟩
  | inside hp _ ih =>
    exact ih (h.expand (next_of_ahead hahead).1 (mem_productionsOf_result hp)) (ahead_zero hp)
  | @behind p t rule symbols hp vanishes starts ih =>
    obtain ⟨next, hbehind⟩ := next_of_ahead hahead
    have gone : cfg.Vanishes [.nonTerminal rule.result] := .cons hp vanishes .nil
    refine .head (gone.reduces wf automaton h hahead (.inl starts)) (ih (h.advance next) ?_)
    exact ahead_advance.trans hbehind

/-- What is left of a production is reduced, if it can vanish. -/
theorem Valid.reduces_rest (h : cfg.Valid word core t) (hahead : cfg.ahead core = symbols ++ rest)
    (vanishes : cfg.Vanishes rest) :
    Relation.ReflTransGen (cfg.Reduces states t) (symbols.reverse ++ word) ((cfg.ahead core).reverse ++ word) := by
  have begun := h.over hahead
  have there : cfg.ahead (core.over symbols) = rest ++ [] := by rw [ahead_over hahead, List.append_nil]
  have reduces := vanishes.reduces wf automaton begun.viable there (.inr ⟨.nil, begun⟩)
  rwa [← List.append_assoc, ← List.reverse_append, ← hahead] at reduces

/-- A terminal that may follow a production is come to from every place behind which the production can vanish. -/
theorem Valid.comesTo_over (h : cfg.Valid word core t) (hahead : cfg.ahead core = symbols ++ rest)
    (vanishes : cfg.Vanishes rest) : cfg.ComesTo states t (symbols.reverse ++ word) := by
  induction h generalizing symbols rest with
  | start =>
    have next : cfg.nextSymbol? ⟨cfg.augmented, 0⟩ = some (.nonTerminal cfg.start) := by
      rw [nextSymbol?, symbolsOf_augmented]
      rfl
    have accepted : cfg.Viable [.nonTerminal cfg.start] ⟨cfg.augmented, 1⟩ := .advance .start next
    obtain ⟨i, state, after, hs, follows⟩ := automaton.exists_state accepted
    refine .head (Valid.start.reduces_rest wf automaton hahead vanishes) ⟨_, .refl, ?_⟩
    rw [ahead, symbolsOf_augmented]
    exact ⟨i, state, after, hs, .inr ⟨rfl, (follows.has_iff _).mpr accepted⟩⟩
  | @first word core n p t h next hn ht =>
    obtain ⟨rule, hp, rfl⟩ := resultOf?_eq_some_iff.mp (mem_productionsOf.mp hn)
    have valid : cfg.Valid word ⟨p, 0⟩ t := .first h next hn ht
    have reduces := valid.reduces_rest wf automaton hahead vanishes
    rw [ahead_zero hp] at reduces
    -- behind the result there is the terminal itself
    have starts := (contains_firstOf_iff wf).mp ht
    exact .head (reduces.tail (valid.reduces automaton hp)) ((h.advance next).comesTo wf automaton starts ahead_advance)
  | @pass word core n p t h next hn nullable ih =>
    obtain ⟨rule, hp, rfl⟩ := resultOf?_eq_some_iff.mp (mem_productionsOf.mp hn)
    have valid : cfg.Valid word ⟨p, 0⟩ t := .pass h next hn nullable
    have reduces := valid.reduces_rest wf automaton hahead vanishes
    rw [ahead_zero hp] at reduces
    -- behind the result there is less to come until the terminal may follow
    have moved : cfg.ahead core = [.nonTerminal rule.result] ++ cfg.behind core := ahead_of_next next
    exact .head (reduces.tail (valid.reduces automaton hp)) (ih moved ((nullable_firstOf_iff wf).mp nullable))
  | @advance word core symbol t h next ih =>
    have longer : cfg.ahead core = (symbol :: symbols) ++ rest := by
      rw [ahead_of_next next, ← ahead_advance, hahead]
      rfl
    have comes := ih longer vanishes
    rwa [List.reverse_cons, List.append_assoc] at comes

/-- **A terminal that is valid is come to**, if what stands behind the dot can vanish. -/
theorem Valid.comesTo (h : cfg.Valid word core t) (vanishes : cfg.Vanishes (cfg.ahead core)) :
    cfg.ComesTo states t word := by
  have unmoved : cfg.ahead core = [] ++ cfg.ahead core := rfl
  exact h.comesTo_over wf automaton unmoved vanishes

end Automaton
end Cfg
end TableParsing
