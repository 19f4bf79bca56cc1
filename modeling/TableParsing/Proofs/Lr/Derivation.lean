import TableParsing.Proofs.Lr.Closure

/-! # What words of symbols derive

Of all that a word of symbols derives, the construction of tables asks two things: whether the word can **vanish**, and
which terminals can **start** what it derives.  The first sets answer both exactly (`nullable_firstOf_iff`,
`contains_firstOf_iff`): no rule brings them anything new, and a look at a rule teaches nothing but what derives. -/

namespace TableParsing
namespace Cfg

/-- The words that derive the empty word. -/
inductive Vanishes (cfg : Cfg) : List Symbol → Prop
  | nil : Vanishes cfg []
  | cons {p : Nat} {rule : Rule} {symbols : List Symbol} (hp : cfg.rules[p]? = some rule)
      (inside : Vanishes cfg rule.symbols) (behind : Vanishes cfg symbols) :
      Vanishes cfg (.nonTerminal rule.result :: symbols)

/-- The terminals that stand first in something that a word derives. -/
inductive Starts (cfg : Cfg) : List Symbol → Nat → Prop
  | terminal {t : Nat} {symbols : List Symbol} : Starts cfg (.terminal t :: symbols) t
  | inside {p t : Nat} {rule : Rule} {symbols : List Symbol} (hp : cfg.rules[p]? = some rule)
      (h : Starts cfg rule.symbols t) : Starts cfg (.nonTerminal rule.result :: symbols) t
  | behind {p t : Nat} {rule : Rule} {symbols : List Symbol} (hp : cfg.rules[p]? = some rule)
      (vanishes : Vanishes cfg rule.symbols) (h : Starts cfg symbols t) :
      Starts cfg (.nonTerminal rule.result :: symbols) t

variable {cfg : Cfg} {known : FirstSets} {symbols others : List Symbol} {symbol : Symbol} {n t : Nat}

theorem Vanishes.append (h : cfg.Vanishes symbols) (h' : cfg.Vanishes others) : cfg.Vanishes (symbols ++ others) := by
  induction h with
  | nil => exact h'
  | cons hp inside _ _ ih => exact .cons hp inside ih

theorem Vanishes.starts_append (h : cfg.Vanishes symbols) (h' : cfg.Starts others t) :
    cfg.Starts (symbols ++ others) t := by
  induction h with
  | nil => exact h'
  | cons hp inside _ _ ih => exact .behind hp inside ih

theorem Vanishes.of_cons (h : cfg.Vanishes (symbol :: symbols)) : cfg.Vanishes [symbol] ∧ cfg.Vanishes symbols := by
  cases h with
  | cons hp inside behind => exact ⟨.cons hp inside .nil, behind⟩

theorem vanishes_append_iff : cfg.Vanishes (symbols ++ others) ↔ cfg.Vanishes symbols ∧ cfg.Vanishes others := by
  refine ⟨fun h => ?_, fun h => h.1.append h.2⟩
  induction symbols with
  | nil => exact ⟨.nil, h⟩
  | cons symbol symbols ih =>
    obtain ⟨first, h⟩ := h.of_cons
    obtain ⟨here, there⟩ := ih h
    exact ⟨first.append here, there⟩

/-- What starts a symbol starts every word that begins with it. -/
theorem Starts.append (h : cfg.Starts symbols t) (others : List Symbol) : cfg.Starts (symbols ++ others) t := by
  induction h with
  | terminal => exact .terminal
  | inside hp h _ => exact .inside hp h
  | behind hp vanishes _ ih => exact .behind hp vanishes ih

/-! ## First sets know what derives -/

/-- Whether what is known of the non-terminals is so. -/
structure Truthful (cfg : Cfg) (known : FirstSets) : Prop where
  fits : known.Fits cfg
  vanishes : ∀ n, known.IsNullable n → cfg.Vanishes [.nonTerminal n]
  starts : ∀ n t, known.CanStart n t → cfg.Starts [.nonTerminal n] t

namespace Truthful
variable (h : cfg.Truthful known)
include h

theorem vanishes_of_firstOf (nullable : (cfg.firstOf known symbols).2) : cfg.Vanishes symbols := by
  induction symbols with
  | nil => exact .nil
  | cons symbol symbols ih =>
    cases symbol with
    | terminal u =>
      rw [firstOf] at nullable
      cases nullable
    | nonTerminal n =>
      obtain ⟨hn, nullable⟩ := nullable_firstOf_nonTerminal.mp nullable
      exact (h.vanishes n hn).append (ih nullable)

theorem starts_of_firstOf (ht : (cfg.firstOf known symbols).1.contains t) : cfg.Starts symbols t := by
  induction symbols with
  | nil =>
    rw [firstOf, TerminalSet.contains_ofSize] at ht
    cases ht
  | cons symbol symbols ih =>
    cases symbol with
    | terminal u =>
      obtain rfl := contains_firstOf_terminal.mp ht
      exact .terminal
    | nonTerminal n =>
      rcases contains_firstOf_nonTerminal.mp ht with ht | ⟨hn, ht⟩
      · exact (h.starts n t ht).append symbols
      · exact (h.vanishes n hn).starts_append (ih ht)

/-- **A look at a rule teaches what derives.** -/
theorem learn (wf : cfg.WellFormed) {rule : Rule} (hr : rule ∈ cfg.rules) : cfg.Truthful (cfg.learn known rule) := by
  obtain ⟨p, hp⟩ := Array.mem_iff_getElem?.mp hr
  have bound := wf.result_lt rule hr
  constructor
  · exact fits_learn wf hr h.fits
  · intro n hn
    rcases (isNullable_learn (h.fits.size_nullable.symm ▸ bound)).mp hn with hn | ⟨rfl, nullable⟩
    · exact h.vanishes n hn
    · exact .cons hp (h.vanishes_of_firstOf nullable) .nil
  · intro n t ht
    rcases (canStart_learn (h.fits.size_first.symm ▸ bound)).mp ht with ht | ⟨rfl, first⟩
    · exact h.starts n t ht
    · exact .inside hp (h.starts_of_firstOf first)

theorem round (wf : cfg.WellFormed) {rules : List Rule} (hr : ∀ rule ∈ rules, rule ∈ cfg.rules) :
    cfg.Truthful (cfg.round rules known) := by
  induction rules generalizing known with
  | nil => exact h
  | cons rule rules ih =>
    exact ih (h.learn wf (hr rule List.mem_cons_self)) fun other ho => hr other (List.mem_cons_of_mem _ ho)

end Truthful

theorem truthful_noFirstSets (cfg : Cfg) : cfg.Truthful cfg.noFirstSets := by
  refine ⟨fits_noFirstSets, fun n hn => ?_, fun n t ht => ?_⟩
  · rw [FirstSets.IsNullable, noFirstSets, Array.getD_eq_getD_getElem?, Array.getElem?_replicate] at hn
    split at hn <;> cases hn
  · obtain ⟨first, hfirst, ht⟩ := ht
    rw [noFirstSets, Array.getElem?_replicate] at hfirst
    split at hfirst
    · cases hfirst
      rw [TerminalSet.contains_ofSize] at ht
      cases ht
    · cases hfirst

theorem truthful_firstSets (wf : cfg.WellFormed) : cfg.Truthful cfg.firstSets := by
  have mem : ∀ rule ∈ cfg.rules.toList, rule ∈ cfg.rules := fun _ h => Array.mem_toList_iff.mp h
  refine stabilize_keeps (fun known h => ?_) _ (truthful_noFirstSets cfg)
  rw [← Array.foldl_toList]
  exact h.round wf mem

/-- **First sets know exactly which words can vanish.** -/
theorem nullable_firstOf_iff (wf : cfg.WellFormed) : (cfg.firstOf cfg.firstSets symbols).2 ↔ cfg.Vanishes symbols := by
  refine ⟨(truthful_firstSets wf).vanishes_of_firstOf, fun h => ?_⟩
  induction h with
  | nil => rfl
  | cons hp _ _ inside behind =>
    have hn := (firstSets_closed wf).isNullable _ (Array.mem_of_getElem? hp) inside
    exact nullable_firstOf_nonTerminal.mpr ⟨hn, behind⟩

/-- **First sets know exactly which terminals start a word.** -/
theorem contains_firstOf_iff (wf : cfg.WellFormed) :
    (cfg.firstOf cfg.firstSets symbols).1.contains t ↔ cfg.Starts symbols t := by
  refine ⟨(truthful_firstSets wf).starts_of_firstOf, fun h => ?_⟩
  have closed := firstSets_closed wf
  induction h with
  | terminal => exact contains_firstOf_terminal.mpr rfl
  | inside hp _ inside =>
    exact contains_firstOf_nonTerminal.mpr (.inl (closed.canStart _ (Array.mem_of_getElem? hp) _ inside))
  | behind hp vanishes _ behind =>
    have hn := closed.isNullable _ (Array.mem_of_getElem? hp) ((nullable_firstOf_iff wf).mpr vanishes)
    exact contains_firstOf_nonTerminal.mpr (.inr ⟨hn, behind⟩)

end Cfg
end TableParsing
