import TableParsing.Grammar.Symbol
import TableParsing.Lexer.Token

/-! # Mended tokens

A recovery takes tokens off the stack, leaves others out, and puts one error token in the place of them all.
So what a parser has understood of a list of tokens is a **mended** list: pieces that do not overlap, and
that may be empty, are each replaced by an error token. -/

namespace TableParsing

variable {α : Type} [Inhabited α]

/-- Whether a token is one that a recovery puts in the place of others. -/
structure Token.IsError (token : Token α) : Prop where
  terminal_eq : token.terminal = errorTerminal
  value_eq : token.value = default

/-- Whether the second list is the first one with some pieces replaced by error tokens, one for each
piece. -/
inductive Mended : List (Token α) → List (Token α) → Prop
  | nil : Mended [] []
  | keep {tokens leaves} (token : Token α) (h : Mended tokens leaves) :
      Mended (token :: tokens) (token :: leaves)
  | mend {tokens leaves} (piece : List (Token α)) {error : Token α} (isError : error.IsError)
      (h : Mended tokens leaves) : Mended (piece ++ tokens) (error :: leaves)

namespace Mended
variable {tokens others leaves more front back : List (Token α)} {token error : Token α}

theorem append (h : Mended tokens leaves) (h' : Mended others more) :
    Mended (tokens ++ others) (leaves ++ more) := by
  induction h with
  | nil => exact h'
  | keep token _ ih => exact .keep token ih
  | mend piece isError _ ih =>
    rw [List.append_assoc]
    exact .mend piece isError ih

theorem refl : (tokens : List (Token α)) → Mended tokens tokens
  | [] => .nil
  | token :: tokens => .keep token (refl tokens)

/-- A part of the mended list is the mended list of a part. -/
theorem split (h : Mended tokens (front ++ back)) : ∃ tokens₁ tokens₂, tokens = tokens₁ ++ tokens₂ ∧
    Mended tokens₁ front ∧ Mended tokens₂ back := by
  induction front generalizing tokens with
  | nil => exact ⟨[], tokens, rfl, .nil, h⟩
  | cons leaf front ih =>
    cases h with
    | keep _ h =>
      obtain ⟨tokens₁, tokens₂, rfl, hf, hb⟩ := ih h
      exact ⟨leaf :: tokens₁, tokens₂, rfl, .keep leaf hf, hb⟩
    | mend piece isError h =>
      obtain ⟨tokens₁, tokens₂, rfl, hf, hb⟩ := ih h
      exact ⟨piece ++ tokens₁, tokens₂, (List.append_assoc ..).symm, .mend piece isError hf, hb⟩

/-- One more token is kept. -/
theorem snoc (h : Mended tokens leaves) (token : Token α) : Mended (tokens ++ [token]) (leaves ++ [token]) :=
  h.append (refl [token])

/-- All behind a part of the mended list is replaced by an error token. -/
theorem cut (h : Mended tokens (front ++ back)) (isError : error.IsError) :
    Mended tokens (front ++ [error]) := by
  obtain ⟨tokens₁, tokens₂, rfl, hf, -⟩ := h.split
  have piece : Mended (tokens₂ ++ []) [error] := .mend tokens₂ isError .nil
  rw [List.append_nil] at piece
  exact hf.append piece

/-- One more token goes into the piece of the last error token. -/
theorem absorb (h : Mended tokens (front ++ [error])) (isError : error.IsError) (token : Token α) :
    Mended (tokens ++ [token]) (front ++ [error]) := by
  obtain ⟨tokens₁, tokens₂, rfl, hf, -⟩ := h.split
  have piece : Mended ((tokens₂ ++ [token]) ++ []) [error] := .mend (tokens₂ ++ [token]) isError .nil
  rw [List.append_nil] at piece
  rw [List.append_assoc]
  exact hf.append piece

end Mended
end TableParsing
