import TableParsing.Lr.First
import TableParsing.Proofs.Fixpoint
import TableParsing.Proofs.Grammar.Declared
import TableParsing.Proofs.Grammar.Tree
import TableParsing.Proofs.Lr.Items

/-! # What first sets know

What is known of the non-terminals is a set of facts: that one **is nullable**, that a terminal **can
start** it.  A look at a rule adds facts and takes none away.  As no more facts can be added than there are
rounds, the first sets are **closed**: no rule brings anything new (`firstSets_closed`).  So they know of
every derivation tree whether its yield is empty, and which terminal it starts with (`Forest.firstOf_of_yield`). -/

namespace TableParsing

namespace FirstSets

/-- Whether the non-terminal `n` is known to derive the empty word. -/
def IsNullable (known : FirstSets) (n : Nat) : Prop := known.nullable.getD n false = true

/-- Whether the terminal `t` is known to stand first in something that the non-terminal `n` derives. -/
def CanStart (known : FirstSets) (n t : Nat) : Prop :=
  ∃ first, known.first[n]? = some first ∧ first.contains t

/-- Whether `other` knows all that `known` knows. -/
structure Le (known other : FirstSets) : Prop where
  isNullable : ∀ n, known.IsNullable n → other.IsNullable n
  canStart : ∀ n t, known.CanStart n t → other.CanStart n t

theorem Le.refl (known : FirstSets) : known.Le known := ⟨fun _ => id, fun _ _ => id⟩

theorem Le.trans {a b c : FirstSets} (h : a.Le b) (h' : b.Le c) : a.Le c :=
  ⟨fun n hn => h'.isNullable n (h.isNullable n hn), fun n t ht => h'.canStart n t (h.canStart n t ht)⟩

/-- Whether there is a place for each non-terminal, with a set that fits the terminals. -/
structure Fits (cfg : Cfg) (known : FirstSets) : Prop where
  size_nullable : known.nullable.size = cfg.nonTerminalCount
  size_first : known.first.size = cfg.nonTerminalCount
  fits : ∀ (n : Nat) (first : TerminalSet), known.first[n]? = some first → first.Fits cfg.terminalCount

/-- The fact with a number: at 0 that the non-terminal is nullable, behind it which terminals can start
it. -/
def Knows (known : FirstSets) : Nat × Nat → Prop
  | (n, 0) => known.IsNullable n
  | (n, t + 1) => known.CanStart n t

/-- Those who know the same are the same. -/
theorem Fits.ext {cfg : Cfg} {known other : FirstSets} (fits : known.Fits cfg) (fits' : other.Fits cfg)
    (h : known.Le other) (h' : other.Le known) : known = other := by
  have nullable : known.nullable = other.nullable := by
    refine Array.ext (fits.size_nullable.trans fits'.size_nullable.symm) fun n hn hn' => ?_
    have same : known.IsNullable n ↔ other.IsNullable n := ⟨h.isNullable n, h'.isNullable n⟩
    rw [IsNullable, IsNullable, ← Array.getElem_eq_getD (h := hn), ← Array.getElem_eq_getD (h := hn')] at same
    exact Bool.eq_iff_iff.mpr same
  have first : known.first = other.first := by
    refine Array.ext (fits.size_first.trans fits'.size_first.symm) fun n hn hn' => ?_
    refine (fits.fits n _ (Array.getElem?_eq_getElem hn)).ext
      (fits'.fits n _ (Array.getElem?_eq_getElem hn')) fun t => ?_
    have same : known.CanStart n t ↔ other.CanStart n t := ⟨h.canStart n t, h'.canStart n t⟩
    simpa [CanStart, hn, hn'] using same
  obtain ⟨nullable', first'⟩ := known
  cases nullable
  cases first
  rfl

end FirstSets

namespace Cfg
variable {cfg : Cfg} {known other : FirstSets} {symbols : List Symbol} {n t u : Nat}

/-! ## Words of symbols -/

theorem contains_firstOf_terminal :
    (cfg.firstOf known (.terminal u :: symbols)).1.contains t ↔ t = u := by
  rw [firstOf, TerminalSet.contains_insert, TerminalSet.contains_ofSize]
  simp

theorem contains_firstOf_nonTerminal :
    (cfg.firstOf known (.nonTerminal n :: symbols)).1.contains t ↔
      known.CanStart n t ∨ known.IsNullable n ∧ (cfg.firstOf known symbols).1.contains t := by
  have start : ((TerminalSet.ofSize cfg.terminalCount).union
      (known.first.getD n (.ofSize cfg.terminalCount))).contains t ↔ known.CanStart n t := by
    rw [TerminalSet.contains_union, TerminalSet.contains_ofSize, FirstSets.CanStart,
      Array.getD_eq_getD_getElem?]
    cases known.first[n]? with
    | none => simp [TerminalSet.contains_ofSize]
    | some first => simp
  rw [firstOf, FirstSets.IsNullable]
  split
  · rename_i hn
    rw [TerminalSet.contains_union, start]
    simp [hn]
  · rename_i hn
    rw [start]
    simp [hn]

theorem nullable_firstOf_nonTerminal :
    (cfg.firstOf known (.nonTerminal n :: symbols)).2 ↔
      known.IsNullable n ∧ (cfg.firstOf known symbols).2 := by
  rw [firstOf, FirstSets.IsNullable]
  split
  · rename_i hn
    simp [hn]
  · rename_i hn
    simp [hn]

theorem fits_firstOf (fits : known.Fits cfg) (h : ∀ t, .terminal t ∈ symbols → t < cfg.terminalCount) :
    (cfg.firstOf known symbols).1.Fits cfg.terminalCount := by
  induction symbols with
  | nil => exact TerminalSet.fits_ofSize _
  | cons symbol symbols ih =>
    have hrest := ih fun t ht => h t (List.mem_cons_of_mem _ ht)
    cases symbol with
    | terminal t => exact (TerminalSet.fits_ofSize _).insert (h t List.mem_cons_self)
    | nonTerminal n =>
      have hfirst : (known.first.getD n (.ofSize cfg.terminalCount)).Fits cfg.terminalCount := by
        rw [Array.getD_eq_getD_getElem?]
        cases hn : known.first[n]? with
        | none => exact TerminalSet.fits_ofSize _
        | some first => exact fits.fits n first hn
      have hunion := (TerminalSet.fits_ofSize cfg.terminalCount).union hfirst
      rw [firstOf]
      split
      · exact hunion.union hrest
      · exact hunion

/-- Whoever knows more says more of a word. -/
theorem firstOf_mono (h : known.Le other) :
    (∀ t, (cfg.firstOf known symbols).1.contains t → (cfg.firstOf other symbols).1.contains t) ∧
      ((cfg.firstOf known symbols).2 → (cfg.firstOf other symbols).2) := by
  induction symbols with
  | nil => exact ⟨fun _ => id, id⟩
  | cons symbol symbols ih =>
    cases symbol with
    | terminal u => exact ⟨fun t => id, id⟩
    | nonTerminal n =>
      refine ⟨?_, ?_⟩
      · intro t
        rw [contains_firstOf_nonTerminal, contains_firstOf_nonTerminal]
        rintro (hs | ⟨hn, hs⟩)
        · exact .inl (h.canStart n t hs)
        · exact .inr ⟨h.isNullable n hn, ih.1 t hs⟩
      · rw [nullable_firstOf_nonTerminal, nullable_firstOf_nonTerminal]
        exact fun ⟨hn, hs⟩ => ⟨h.isNullable n hn, ih.2 hs⟩

/-! ## Looks at rules -/

variable {rule : Rule}

theorem isNullable_learn (h : rule.result < known.nullable.size) : (cfg.learn known rule).IsNullable n ↔
    known.IsNullable n ∨ n = rule.result ∧ (cfg.firstOf known rule.symbols).2 := by
  have modified : (cfg.learn known rule).nullable =
      known.nullable.modify rule.result (· || (cfg.firstOf known rule.symbols).2) := rfl
  rw [FirstSets.IsNullable, FirstSets.IsNullable, modified, Array.getD_eq_getD_getElem?,
    Array.getD_eq_getD_getElem?, Array.getElem?_modify]
  by_cases hn : rule.result = n
  · subst hn
    simp [h]
  · simp [hn, Ne.symm hn]

theorem canStart_learn (h : rule.result < known.first.size) : (cfg.learn known rule).CanStart n t ↔
    known.CanStart n t ∨ n = rule.result ∧ (cfg.firstOf known rule.symbols).1.contains t := by
  have modified : (cfg.learn known rule).first =
      known.first.modify rule.result (·.union (cfg.firstOf known rule.symbols).1) := rfl
  rw [FirstSets.CanStart, FirstSets.CanStart, modified, Array.getElem?_modify]
  by_cases hn : rule.result = n
  · subst hn
    simp [h, TerminalSet.contains_union]
  · simp [hn, Ne.symm hn]

theorem fits_learn (wf : cfg.WellFormed) (hr : rule ∈ cfg.rules) (fits : known.Fits cfg) :
    (cfg.learn known rule).Fits cfg where
  size_nullable := Array.size_modify.trans fits.size_nullable
  size_first := Array.size_modify.trans fits.size_first
  fits n first h := by
    have modified : (cfg.learn known rule).first =
        known.first.modify rule.result (·.union (cfg.firstOf known rule.symbols).1) := rfl
    rw [modified, Array.getElem?_modify] at h
    split at h
    · obtain ⟨old, hold, rfl⟩ := Option.map_eq_some_iff.mp h
      exact (fits.fits n old hold).union (fits_firstOf fits (wf.terminal_lt rule hr))
    · exact fits.fits n first h

theorem le_learn (wf : cfg.WellFormed) (hr : rule ∈ cfg.rules) (fits : known.Fits cfg) :
    known.Le (cfg.learn known rule) where
  isNullable _ h := (isNullable_learn (fits.size_nullable ▸ wf.result_lt rule hr)).mpr (.inl h)
  canStart _ _ h := (canStart_learn (fits.size_first ▸ wf.result_lt rule hr)).mpr (.inl h)

/-! ## Rounds -/

/-- What is known after a look at every rule of a list. -/
def round (cfg : Cfg) (rules : List Rule) (known : FirstSets) : FirstSets := rules.foldl cfg.learn known

theorem fits_round (wf : cfg.WellFormed) {rules : List Rule} (hr : ∀ rule ∈ rules, rule ∈ cfg.rules)
    (fits : known.Fits cfg) : (cfg.round rules known).Fits cfg := by
  induction rules generalizing known with
  | nil => exact fits
  | cons rule rules ih =>
    exact ih (fun r h => hr r (List.mem_cons_of_mem _ h)) (fits_learn wf (hr rule List.mem_cons_self) fits)

theorem le_round (wf : cfg.WellFormed) {rules : List Rule} (hr : ∀ rule ∈ rules, rule ∈ cfg.rules)
    (fits : known.Fits cfg) : known.Le (cfg.round rules known) := by
  induction rules generalizing known with
  | nil => exact .refl known
  | cons rule rules ih =>
    have here := hr rule List.mem_cons_self
    exact (le_learn wf here fits).trans
      (ih (fun r h => hr r (List.mem_cons_of_mem _ h)) (fits_learn wf here fits))

/-- A round looks at every rule, knowing no less than before the round and no more than behind it. -/
theorem exists_learn_of_round (wf : cfg.WellFormed) {rules : List Rule}
    (hr : ∀ rule ∈ rules, rule ∈ cfg.rules) (fits : known.Fits cfg) (h : rule ∈ rules) :
    ∃ before : FirstSets, before.Fits cfg ∧ known.Le before ∧
      (cfg.learn before rule).Le (cfg.round rules known) := by
  -- a front and a back of the round lie around the look at the rule, and neither takes facts away
  obtain ⟨front, back, rfl⟩ := List.append_of_mem h
  have hfront : ∀ r ∈ front, r ∈ cfg.rules := fun r hm => hr r (List.mem_append_left _ hm)
  have hback : ∀ r ∈ back, r ∈ cfg.rules := fun r hm =>
    hr r (List.mem_append_right _ (List.mem_cons_of_mem _ hm))
  have rounds : cfg.round (front ++ rule :: back) known =
      cfg.round back (cfg.learn (cfg.round front known) rule) := by
    rw [round, List.foldl_append]
    rfl
  have fitsFront := fits_round wf hfront fits
  exact ⟨cfg.round front known, fitsFront, le_round wf hfront fits,
    rounds ▸ le_round wf hback (fits_learn wf (hr rule h) fitsFront)⟩

/-- Whether no rule brings anything new. -/
structure IsClosed (cfg : Cfg) (known : FirstSets) : Prop where
  isNullable : ∀ rule ∈ cfg.rules, (cfg.firstOf known rule.symbols).2 → known.IsNullable rule.result
  canStart : ∀ rule ∈ cfg.rules, ∀ t, (cfg.firstOf known rule.symbols).1.contains t →
    known.CanStart rule.result t

theorem isClosed_of_round_eq (wf : cfg.WellFormed) (fits : known.Fits cfg)
    (h : cfg.round cfg.rules.toList known = known) : cfg.IsClosed known := by
  -- between two rounds that come to the same, every look has come to the same
  have learned {rule : Rule} (hr : rule ∈ cfg.rules) :
      ∃ before : FirstSets, before.Fits cfg ∧ known.Le before ∧ (cfg.learn before rule).Le known := by
    have look := exists_learn_of_round wf (fun r hm => Array.mem_toList_iff.mp hm) fits
      (Array.mem_toList_iff.mpr hr)
    rwa [h] at look
  constructor
  · intro rule hr hempty
    obtain ⟨before, fitsBefore, hle, hle'⟩ := learned hr
    have bound : rule.result < before.nullable.size := fitsBefore.size_nullable ▸ wf.result_lt rule hr
    exact hle'.isNullable _ ((isNullable_learn bound).mpr (.inr ⟨rfl, (firstOf_mono hle).2 hempty⟩))
  · intro rule hr t ht
    obtain ⟨before, fitsBefore, hle, hle'⟩ := learned hr
    have bound : rule.result < before.first.size := fitsBefore.size_first ▸ wf.result_lt rule hr
    exact hle'.canStart _ t ((canStart_learn bound).mpr (.inr ⟨rfl, (firstOf_mono hle).1 t ht⟩))

/-! ## The first sets -/

theorem fits_noFirstSets : cfg.noFirstSets.Fits cfg where
  size_nullable := Array.size_replicate
  size_first := Array.size_replicate
  fits n first h := by
    rw [noFirstSets, Array.getElem?_replicate] at h
    split at h
    · cases h
      exact TerminalSet.fits_ofSize _
    · cases h

/-- The numbers of the facts that can be known of a grammar. -/
def factNumbers (cfg : Cfg) : List (Nat × Nat) :=
  (List.range cfg.nonTerminalCount).flatMap fun n => (List.range (cfg.terminalCount + 1)).map (n, ·)

theorem length_factNumbers :
    cfg.factNumbers.length = cfg.nonTerminalCount * (cfg.terminalCount + 1) := by
  rw [factNumbers, List.length_flatMap]
  simp [List.map_const']

theorem mem_factNumbers_of_knows (fits : known.Fits cfg) {fact : Nat × Nat} (h : known.Knows fact) :
    fact ∈ cfg.factNumbers := by
  obtain ⟨n, k⟩ := fact
  suffices bound : n < cfg.nonTerminalCount ∧ k < cfg.terminalCount + 1 by
    simpa [factNumbers] using bound
  cases k with
  | zero =>
    refine ⟨Nat.lt_of_not_le fun hle => ?_, Nat.succ_pos _⟩
    have out : ¬n < known.nullable.size := by
      rw [fits.size_nullable]
      omega
    simp [FirstSets.Knows, FirstSets.IsNullable, out] at h
  | succ t =>
    obtain ⟨first, hfirst, ht⟩ := h
    have hn := (Array.getElem?_eq_some_iff.mp hfirst).1
    rw [fits.size_first] at hn
    have := (fits.fits n first hfirst).lt_of_contains t ht
    exact ⟨hn, by omega⟩

theorem countHolding_knows_lt (fits : known.Fits cfg) (fits' : other.Fits cfg) (h : known.Le other)
    (hne : other ≠ known) :
    countHolding cfg.factNumbers known.Knows < countHolding cfg.factNumbers other.Knows := by
  have keeps : ∀ fact, known.Knows fact → other.Knows fact
    | (n, 0) => h.isNullable n
    | (n, t + 1) => h.canStart n t
  -- had nothing been added, the two would be the same
  have new : ∃ fact, other.Knows fact ∧ ¬known.Knows fact := by
    refine Classical.byContradiction fun hno => hne ?_
    have back : ∀ fact, other.Knows fact → known.Knows fact := fun fact hf =>
      Classical.byContradiction fun hk => hno ⟨fact, hf, hk⟩
    exact fits'.ext fits ⟨fun n hn => back (n, 0) hn, fun n t ht => back (n, t + 1) ht⟩ h
  obtain ⟨fact, hf, hk⟩ := new
  exact countHolding_lt (fun fact _ => keeps fact) (mem_factNumbers_of_knows fits' hf) hk hf

theorem firstSets_eq_stabilize : cfg.firstSets = stabilize (cfg.round cfg.rules.toList)
    (cfg.nonTerminalCount * (cfg.terminalCount + 1) + 1) cfg.noFirstSets := by
  rw [firstSets]
  congr 1
  funext known
  rw [round, Array.foldl_toList]

theorem firstSets_fixed (wf : cfg.WellFormed) :
    cfg.firstSets.Fits cfg ∧ cfg.round cfg.rules.toList cfg.firstSets = cfg.firstSets := by
  have mem : ∀ rule ∈ cfg.rules.toList, rule ∈ cfg.rules := fun _ h => Array.mem_toList_iff.mp h
  rw [firstSets_eq_stabilize]
  refine stabilize_fixed (fun known => countHolding cfg.factNumbers known.Knows)
    (fun _ fits => fits_round wf mem fits)
    (fun _ fits hne => countHolding_knows_lt fits (fits_round wf mem fits) (le_round wf mem fits) hne)
    (fun _ _ => countHolding_le_length) fits_noFirstSets ?_
  rw [length_factNumbers]
  omega

theorem fits_firstSets (wf : cfg.WellFormed) : cfg.firstSets.Fits cfg := (firstSets_fixed wf).1

/-- **No rule brings the first sets anything new.** -/
theorem firstSets_closed (wf : cfg.WellFormed) : cfg.IsClosed cfg.firstSets :=
  isClosed_of_round_eq wf (fits_firstSets wf) (firstSets_fixed wf).2

end Cfg

/-! ## Yields -/

namespace Grammar
variable {α : Type} {grammar : Grammar α} {known : FirstSets}

theorem mem_rules_of_getElem? {p : Nat} {production : Production α}
    (h : grammar.productions[p]? = some production) :
    (⟨production.result, production.symbols⟩ : Rule) ∈ grammar.cfg.rules :=
  mem_rules_cfg.mpr ⟨production, List.mem_of_getElem? h, rfl⟩

mutual

/-- A symbol with an empty yield is a non-terminal that is known to be nullable. -/
theorem Tree.isNullable_of_yield (closed : grammar.cfg.IsClosed known) {symbol : Symbol}
    (tree : grammar.Tree symbol) (h : tree.yield = []) :
    ∃ n, symbol = .nonTerminal n ∧ known.IsNullable n := by
  match tree with
  | .leaf token =>
    rw [Tree.yield] at h
    cases h
  | .node p production there error children =>
    rw [Tree.yield] at h
    exact ⟨production.result, rfl, closed.isNullable _ (mem_rules_of_getElem? there)
      (children.firstOf_of_yield_nil closed h)⟩

/-- A word with an empty yield is known to be nullable. -/
theorem Forest.firstOf_of_yield_nil (closed : grammar.cfg.IsClosed known) {symbols : List Symbol}
    (forest : grammar.Forest symbols) (h : forest.yield = []) : (grammar.cfg.firstOf known symbols).2 := by
  match forest with
  | .nil => rfl
  | .cons tree rest =>
    rw [Forest.yield] at h
    obtain ⟨htree, hrest⟩ := List.append_eq_nil_iff.mp h
    obtain ⟨n, rfl, hn⟩ := tree.isNullable_of_yield closed htree
    exact Cfg.nullable_firstOf_nonTerminal.mpr ⟨hn, rest.firstOf_of_yield_nil closed hrest⟩

end

mutual

/-- The terminal that a yield begins with is known to start the symbol, whatever stands behind it. -/
theorem Tree.firstOf_of_yield (closed : grammar.cfg.IsClosed known) {symbol : Symbol}
    (tree : grammar.Tree symbol) {token : Token α} {tokens : List (Token α)}
    (h : tree.yield = token :: tokens) (behind : List Symbol) :
    (grammar.cfg.firstOf known (symbol :: behind)).1.contains token.terminal := by
  match tree with
  | .leaf token' =>
    rw [Tree.yield] at h
    cases h
    exact Cfg.contains_firstOf_terminal.mpr rfl
  | .node p production there error children =>
    rw [Tree.yield] at h
    exact Cfg.contains_firstOf_nonTerminal.mpr (.inl (closed.canStart _ (mem_rules_of_getElem? there) _
      (children.firstOf_of_yield closed h)))

/-- The terminal that a yield begins with is known to start the word. -/
theorem Forest.firstOf_of_yield (closed : grammar.cfg.IsClosed known) {symbols : List Symbol}
    (forest : grammar.Forest symbols) {token : Token α} {tokens : List (Token α)}
    (h : forest.yield = token :: tokens) :
    (grammar.cfg.firstOf known symbols).1.contains token.terminal := by
  match forest with
  | .nil =>
    rw [Forest.yield] at h
    cases h
  | .cons tree rest =>
    rw [Forest.yield] at h
    cases hy : tree.yield with
    | cons first others =>
      rw [hy] at h
      cases h
      exact tree.firstOf_of_yield closed hy _
    | nil =>
      rw [hy, List.nil_append] at h
      obtain ⟨n, rfl, hn⟩ := tree.isNullable_of_yield closed hy
      exact Cfg.contains_firstOf_nonTerminal.mpr (.inr ⟨hn, rest.firstOf_of_yield closed h⟩)

end

end Grammar
end TableParsing
