import Mathlib.Logic.Relation
import TableParsing.Proofs.Lr.Derivation

/-! # Sentential forms

A word of symbols is rewritten by putting the right-hand side of a production in the place of the non-terminal that it
derives, wherever that stands, and a word **derives** what it is rewritten to in any number of steps.  That a word can
vanish, or that a terminal can start what it derives, are facts about productions and the words in them
(`Cfg.Vanishes`, `Cfg.Starts`); here they are facts about derivations: a word vanishes if it derives the empty word
(`vanishes_iff_derives`), and a terminal starts it if it derives a word that begins with the terminal
(`starts_iff_derives`).

**So first sets are exact** (`isExact_firstSets`): what they know of a non-terminal, and what they say of a word, is all
that can be derived, and nothing else. -/

namespace TableParsing

/-! ## Derivations -/

namespace Cfg

/-- The right-hand side of a production takes the place of its non-terminal. -/
inductive Rewrites (cfg : Cfg) : List Symbol → List Symbol → Prop
  | intro {p : Nat} {rule : Rule} (hp : cfg.rules[p]? = some rule) (front back : List Symbol) :
      Rewrites cfg (front ++ .nonTerminal rule.result :: back) (front ++ (rule.symbols ++ back))

/-- Whether a word can be rewritten to another one, in any number of steps. -/
def Derives (cfg : Cfg) : List Symbol → List Symbol → Prop := Relation.ReflTransGen cfg.Rewrites

variable {cfg : Cfg} {symbols word next other : List Symbol} {t : Nat}

theorem Rewrites.append_right (h : cfg.Rewrites word next) (back : List Symbol) :
    cfg.Rewrites (word ++ back) (next ++ back) := by
  obtain ⟨hp, front, back'⟩ := h
  rw [List.append_assoc, List.append_assoc, List.append_assoc, List.cons_append]
  exact .intro hp front _

namespace Derives

theorem append_right (h : cfg.Derives word next) (back : List Symbol) :
    cfg.Derives (word ++ back) (next ++ back) :=
  Relation.ReflTransGen.lift (· ++ back) (fun _ _ step => step.append_right back) _ _ h

/-- A non-terminal in front is rewritten, and so is what is put in its place. -/
theorem cons {p : Nat} {rule : Rule} (hp : cfg.rules[p]? = some rule) (h : cfg.Derives rule.symbols next)
    (back : List Symbol) : cfg.Derives (.nonTerminal rule.result :: back) (next ++ back) :=
  .head (.intro hp [] back) (h.append_right back)

end Derives

/-! ## Vanishing words -/

theorem Vanishes.derives (h : cfg.Vanishes symbols) : cfg.Derives symbols [] := by
  induction h with
  | nil => exact .refl
  | cons hp _ _ inside behind => exact (Derives.cons hp inside _).trans behind

/-- What is rewritten to a word that can vanish can vanish. -/
theorem Rewrites.vanishes (h : cfg.Rewrites word next) (vanishes : cfg.Vanishes next) : cfg.Vanishes word := by
  obtain ⟨hp, front, back⟩ := h
  obtain ⟨first, rest⟩ := vanishes_append_iff.mp vanishes
  obtain ⟨inside, behind⟩ := vanishes_append_iff.mp rest
  exact first.append (.cons hp inside behind)

/-- **The words that can vanish are those that derive the empty word.** -/
theorem vanishes_iff_derives : cfg.Vanishes symbols ↔ cfg.Derives symbols [] := by
  refine ⟨Vanishes.derives, fun h => ?_⟩
  induction h using Relation.ReflTransGen.head_induction_on with
  | refl => exact .nil
  | head step _ ih => exact step.vanishes ih

/-! ## First terminals -/

theorem Starts.exists_derives (h : cfg.Starts symbols t) : ∃ rest, cfg.Derives symbols (.terminal t :: rest) := by
  induction h with
  | @terminal t rest => exact ⟨rest, .refl⟩
  | @inside _ _ _ back hp _ ih =>
    obtain ⟨rest, derives⟩ := ih
    exact ⟨rest ++ back, derives.cons hp back⟩
  | behind hp vanishes _ ih =>
    obtain ⟨rest, derives⟩ := ih
    exact ⟨rest, (vanishes.derives.cons hp _).trans derives⟩

theorem starts_append_iff : cfg.Starts (symbols ++ other) t ↔
    cfg.Starts symbols t ∨ cfg.Vanishes symbols ∧ cfg.Starts other t := by
  refine ⟨fun h => ?_, fun h => h.elim (·.append other) fun h => h.1.starts_append h.2⟩
  induction symbols with
  | nil => exact .inr ⟨.nil, h⟩
  | cons symbol symbols ih =>
    cases h with
    | terminal => exact .inl .terminal
    | inside hp h => exact .inl (.inside hp h)
    | behind hp vanishes h =>
      exact (ih h).imp (.behind hp vanishes) fun ⟨rest, there⟩ => ⟨.cons hp vanishes rest, there⟩

/-- What starts a word starts the words that are rewritten to it. -/
theorem Rewrites.starts (h : cfg.Rewrites word next) (starts : cfg.Starts next t) : cfg.Starts word t := by
  obtain ⟨hp, front, back⟩ := h
  rw [starts_append_iff] at starts ⊢
  refine starts.imp_right fun ⟨vanishes, starts⟩ => ⟨vanishes, ?_⟩
  rcases starts_append_iff.mp starts with inside | ⟨empty, behind⟩
  · exact .inside hp inside
  · exact .behind hp empty behind

/-- **A terminal starts a word if the word derives one that begins with the terminal.** -/
theorem starts_iff_derives : cfg.Starts symbols t ↔ ∃ rest, cfg.Derives symbols (.terminal t :: rest) := by
  refine ⟨Starts.exists_derives, ?_⟩
  rintro ⟨rest, h⟩
  induction h using Relation.ReflTransGen.head_induction_on with
  | refl => exact .terminal
  | head step _ ih => exact step.starts ih

end Cfg

/-! ## First sets -/

/-- What is known of the non-terminals of a grammar, and what is said of words, if it is exactly what derives. -/
structure FirstSets.IsExact (known : FirstSets) (cfg : Cfg) : Prop where
  isNullable_iff : ∀ n, known.IsNullable n ↔ cfg.Derives [.nonTerminal n] []
  canStart_iff : ∀ n t, known.CanStart n t ↔ ∃ rest, cfg.Derives [.nonTerminal n] (.terminal t :: rest)
  contains_iff : ∀ symbols t,
    (cfg.firstOf known symbols).1.contains t ↔ ∃ rest, cfg.Derives symbols (.terminal t :: rest)
  nullable_iff : ∀ symbols, (cfg.firstOf known symbols).2 ↔ cfg.Derives symbols []

namespace Cfg
variable {cfg : Cfg}

/-- **First sets know what derives, and nothing else.** -/
theorem isExact_firstSets (wf : cfg.WellFormed) : cfg.firstSets.IsExact cfg := by
  have contains (symbols : List Symbol) (t : Nat) : (cfg.firstOf cfg.firstSets symbols).1.contains t ↔
      ∃ rest, cfg.Derives symbols (.terminal t :: rest) := (contains_firstOf_iff wf).trans starts_iff_derives
  have nullable (symbols : List Symbol) : (cfg.firstOf cfg.firstSets symbols).2 ↔ cfg.Derives symbols [] :=
    (nullable_firstOf_iff wf).trans vanishes_iff_derives
  refine ⟨fun n => ?_, fun n t => ?_, contains, nullable⟩
  -- what is known of a non-terminal is what is said of the word that it is alone
  · rw [← nullable [.nonTerminal n], nullable_firstOf_nonTerminal]
    exact (and_iff_left rfl).symm
  · rw [← contains [.nonTerminal n] t, contains_firstOf_nonTerminal, firstOf, TerminalSet.contains_ofSize]
    simp

/-- Two non-terminals that derive each other: `0 → 1 x` and `0 →`, `1 → 0 1 y` and `1 → 0`. -/
def entwined : Cfg where
  terminalCount := 4
  nonTerminalCount := 2
  rules := #[⟨0, [.nonTerminal 1, .terminal 2]⟩, ⟨0, []⟩, ⟨1, [.nonTerminal 0, .nonTerminal 1, .terminal 3]⟩,
    ⟨1, [.nonTerminal 0]⟩]
  start := 0

theorem wellFormed_entwined : entwined.WellFormed where
  errorTerminal_lt := by decide
  start_lt := by decide
  result_lt := by simp [entwined]
  terminal_lt := by simp [entwined]
  nonTerminal_lt := by simp [entwined]

theorem firstSets_entwined : entwined.firstSets = ⟨#[true, true], #[⟨1, 12⟩, ⟨1, 12⟩]⟩ := by cbv

/-- The second non-terminal derives words that begin with either terminal, for both non-terminals in front of it can
vanish. -/
theorem isExact_firstSets_entwined : entwined.WellFormed ∧ entwined.firstSets.IsExact entwined ∧
    entwined.Derives [.nonTerminal 1] [] ∧
    (∃ rest, entwined.Derives [.nonTerminal 1] (.terminal 3 :: rest)) ∧
    ¬∃ rest, entwined.Derives [.nonTerminal 1] (.terminal 1 :: rest) := by
  have exact' := isExact_firstSets wellFormed_entwined
  refine ⟨wellFormed_entwined, exact', (exact'.nullable_iff _).mp ?_, (exact'.contains_iff _ _).mp ?_,
    mt (exact'.contains_iff _ _).mpr ?_⟩
  all_goals
    rw [firstSets_entwined]
    decide

end Cfg
end TableParsing
