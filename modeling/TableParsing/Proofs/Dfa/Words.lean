import TableParsing.Proofs.Dfa.Lookup

/-! # Words that an automaton reads

What a state does with a word is its **outcome**: the verdict behind the word, or nothing when the automaton is stuck in
front of its end.  States of two automata are **alike** when no word tells them apart.  Alike states step to alike
states (`Alike.step`), and the longest matches from them are the same (`Alike.matchFrom_eq`). -/

namespace TableParsing
namespace Dfa

section Runs
variable (dfa : Dfa)

/-- The state that reading a word leads to from `s`. -/
def run (s : Nat) : List Char → Option Nat
  | [] => some s
  | c :: word => (dfa.step s c).bind fun t => run t word

/-- The verdict behind a word that is read from `s`; there is none when the automaton is stuck. -/
def outcome (s : Nat) (word : List Char) : Option Verdict := (dfa.run s word).map dfa.verdict

/-- Whether reading some word from the beginning leads to the state. -/
def Reaches (s : Nat) : Prop := ∃ word, dfa.run 0 word = some s

variable {dfa} {s t : Nat} {c : Char} {word : List Char}

theorem outcome_nil : dfa.outcome s [] = some (dfa.verdict s) := rfl

theorem outcome_cons : dfa.outcome s (c :: word) = (dfa.step s c).bind fun t => dfa.outcome t word := by
  rw [outcome, run, Option.map_bind]
  rfl

/-- The automaton is stuck behind one character only if there is no step. -/
theorem outcome_singleton_eq_none_iff : dfa.outcome s [c] = none ↔ dfa.step s c = none := by
  rw [outcome_cons]
  cases dfa.step s c with
  | none => exact iff_of_true rfl rfl
  | some t => exact iff_of_false (Option.some_ne_none _) (Option.some_ne_none _)

end Runs

/-- Whether no word tells `s`, a state of `dfa`, and `s'`, a state of `dfa'`, apart. -/
def Alike (dfa dfa' : Dfa) (s s' : Nat) : Prop := ∀ word, dfa.outcome s word = dfa'.outcome s' word

namespace Alike
variable {dfa dfa' dfa'' : Dfa} {s s' s'' : Nat}

theorem symm (h : Alike dfa dfa' s s') : Alike dfa' dfa s' s := fun word => (h word).symm

theorem trans (h : Alike dfa dfa' s s') (h' : Alike dfa' dfa'' s' s'') : Alike dfa dfa'' s s'' :=
  fun word => (h word).trans (h' word)

theorem verdict_eq (h : Alike dfa dfa' s s') : dfa.verdict s = dfa'.verdict s' := Option.some.inj (h [])

/-- **Alike states step to alike states**, or are both stuck. -/
theorem step (h : Alike dfa dfa' s s') (c : Char) : Option.Rel (Alike dfa dfa') (dfa.step s c) (dfa'.step s' c) := by
  have stuck : dfa.step s c = none ↔ dfa'.step s' c = none := by
    rw [← outcome_singleton_eq_none_iff, h [c], outcome_singleton_eq_none_iff]
  have behind : ∀ word, ((dfa.step s c).bind fun t => dfa.outcome t word) =
      (dfa'.step s' c).bind fun t => dfa'.outcome t word := by
    intro word
    rw [← outcome_cons, h (c :: word), outcome_cons]
  cases ht : dfa.step s c with
  | none =>
    rw [stuck.mp ht]
    exact .none
  | some t =>
    obtain ⟨t', ht'⟩ := Option.ne_none_iff_exists'.mp fun none => Option.some_ne_none t (ht ▸ stuck.mpr none)
    rw [ht, ht'] at behind
    rw [ht']
    exact .some behind

/-- The longest matches from alike states are the same. -/
theorem matchFrom_eq (h : Alike dfa dfa' s s') (length : Nat) (best : Option (Verdict × Nat)) (text : List Char) :
    dfa.matchFrom s length best text = dfa'.matchFrom s' length best text := by
  have update (length : Nat) (best : Option (Verdict × Nat)) {s s' : Nat} (h : Alike dfa dfa' s s') :
      matchFrom.update dfa s length best = matchFrom.update dfa' s' length best := by
    rw [matchFrom.update, matchFrom.update, h.verdict_eq]
  induction text generalizing s s' length best with
  | nil => exact update length best h
  | cons c text ih =>
    rw [matchFrom, matchFrom, update length best h]
    have step := h.step c
    generalize dfa.step s c = after, dfa'.step s' c = after' at step
    cases step with
    | none => rfl
    | some ht => exact ih ht (length + 1) _

end Alike
end Dfa
end TableParsing
