import TableParsing.Lexer.Scan

/-! # Matchers that agree

Two matchers **agree** when a relation of their states holds of the states they begin in, is kept by every character,
and relates states with the same verdict only.  Then no text tells them apart: they take the same characters, and say
the same wherever scanning might stop. -/

namespace TableParsing
namespace Matcher

section Two
variable {ε σ ε' σ' : Type} [Matcher ε σ] [Matcher ε' σ'] {m : ε} {m' : ε'} {related : σ → σ' → Prop} {s : σ} {s' : σ'}

/-- Whether the relation holds wherever the matchers come to. -/
structure Simulates (m : ε) (m' : ε') (related : σ → σ' → Prop) : Prop where
  rel_initial : related (initial m) (initial m')
  rel_next : ∀ s s', related s s' → ∀ c, Option.Rel related (next m s c) (next m' s' c)
  verdict_eq : ∀ s s', related s s' → verdict m s = verdict m' s'

/-- Whether no text tells the matchers apart. -/
def Agree (m : ε) (m' : ε') : Prop := ∃ related, Simulates m m' related

/-- The verdict of a state, and those behind the characters that the matcher takes from there. -/
def verdicts (m : ε) (s : σ) : List Char → List Verdict
  | [] => [verdict m s]
  | c :: text =>
    verdict m s ::
      match next m s c with
      | none => []
      | some t => verdicts m t text

/-- The verdicts along a text from its beginning: one in front of each character that is taken, and one behind them. -/
def verdictsOf (m : ε) (text : List Char) : List Verdict := verdicts m (initial m) text

namespace Simulates
variable (h : Simulates m m' related)
include h

theorem verdicts_eq (hs : related s s') (text : List Char) : verdicts m s text = verdicts m' s' text := by
  induction text generalizing s s' with
  | nil => rw [verdicts, verdicts, h.verdict_eq s s' hs]
  | cons c text ih =>
    rw [verdicts, verdicts, h.verdict_eq s s' hs]
    have step := h.rel_next s s' hs c
    generalize next m s c = after, next m' s' c = after' at step
    cases step with
    | some ht => exact congrArg _ (ih ht)
    | none => rfl

theorem munch_eq (hs : related s s') (text : List Char) :
    (munch m s text).1 = (munch m' s' text).1 ∧ related (munch m s text).2 (munch m' s' text).2 := by
  induction text generalizing s s' with
  | nil => exact ⟨rfl, hs⟩
  | cons c text ih =>
    rw [munch, munch]
    have step := h.rel_next s s' hs c
    generalize next m s c = after, next m' s' c = after' at step
    cases step with
    | some ht => exact ⟨congrArg _ (ih ht).1, (ih ht).2⟩
    | none => exact ⟨rfl, hs⟩

end Simulates

namespace Agree

theorem verdictsOf_eq (h : Agree m m') (text : List Char) : verdictsOf m text = verdictsOf m' text := by
  obtain ⟨related, h⟩ := h
  exact h.verdicts_eq h.rel_initial text

/-- Matchers that agree take the same characters, and come to the same verdict behind them. -/
theorem munch_eq (h : Agree m m') (text : List Char) :
    (munch m (initial m) text).1 = (munch m' (initial m') text).1 ∧
      verdict m (munch m (initial m) text).2 = verdict m' (munch m' (initial m') text).2 := by
  obtain ⟨related, h⟩ := h
  obtain ⟨lexeme, stop⟩ := h.munch_eq h.rel_initial text
  exact ⟨lexeme, h.verdict_eq _ _ stop⟩

end Agree
end Two

theorem Agree.refl {ε σ : Type} [Matcher ε σ] (m : ε) : Agree m m := by
  refine ⟨(· = ·), rfl, ?_, ?_⟩
  · rintro s _ rfl c
    cases next m s c with
    | none => exact .none
    | some t => exact .some rfl
  · rintro s _ rfl
    rfl

section Three
variable {ε₁ σ₁ ε₂ σ₂ ε₃ σ₃ : Type} [Matcher ε₁ σ₁] [Matcher ε₂ σ₂] [Matcher ε₃ σ₃] {m₁ : ε₁} {m₂ : ε₂} {m₃ : ε₃}

theorem Agree.trans (h : Agree m₁ m₂) (h' : Agree m₂ m₃) : Agree m₁ m₃ := by
  obtain ⟨related, h⟩ := h
  obtain ⟨related', h'⟩ := h'
  refine ⟨fun s t => ∃ m, related s m ∧ related' m t, ⟨_, h.rel_initial, h'.rel_initial⟩, ?_, ?_⟩
  · rintro s t ⟨m, hsm, hmt⟩ c
    have step := h.rel_next s m hsm c
    have step' := h'.rel_next m t hmt c
    generalize next m₁ s c = a, next m₂ m c = b, next m₃ t c = d at step step'
    cases step with
    | some hab =>
      cases step' with
      | some hbd => exact .some ⟨_, hab, hbd⟩
    | none =>
      cases step' with
      | none => exact .none
  · rintro s t ⟨m, hsm, hmt⟩
    exact (h.verdict_eq s m hsm).trans (h'.verdict_eq m t hmt)

end Three
end Matcher
end TableParsing
