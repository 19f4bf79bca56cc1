import TableParsing.Grammar.Lexer
import TableParsing.Proofs.Grammar.Declared

/-! # The terminals of declared grammars

A declaration gives a terminal the next number, or leaves the kinds of all terminals as they are.  So the reserved
terminals stay where they are, in front, and since a text gets a terminal only if it has none, **no two terminals have the
same text** (`Grammar.Declared.orderly`).  The lexer has a rule for each text and each pattern. -/

namespace TableParsing

variable {α : Type}

/-! ## Kinds -/

/-- The kinds of terminals, by number. -/
def kindsOf (terminals : List (Terminal α)) : List (TerminalKind α) := terminals.map (·.kind)

/-- Whether the terminals that the parser makes are the first two, and each text belongs to one terminal. -/
structure TerminalKind.Orderly (kinds : List (TerminalKind α)) : Prop where
  reserved : [.reserved, .reserved] <+: kinds
  distinct : ∀ {text : String} {s t : Nat}, kinds[s]? = some (.literal text) → kinds[t]? = some (.literal text) → s = t

namespace TerminalKind.Orderly

variable {kinds : List (TerminalKind α)} {kind : TerminalKind α} {t : Nat}

theorem initial : Orderly (kindsOf ({} : GrammarDraft α).terminals) where
  reserved := List.prefix_rfl
  distinct {_ s _} h _ := by
    match s with
    | 0 | 1 => cases h

/-- A new terminal may have any text that no other has. -/
theorem snoc (h : Orderly kinds) (new : ∀ text, kind = .literal text → .literal text ∉ kinds) :
    Orderly (kinds ++ [kind]) where
  reserved := h.reserved.trans (List.prefix_append _ _)
  distinct {text s t} hs ht := by
    have place {u : Nat} (hu : (kinds ++ [kind])[u]? = some (.literal text)) :
        kinds[u]? = some (.literal text) ∨ (u = kinds.length ∧ kind = .literal text) := by
      rw [List.getElem?_append] at hu
      split at hu
      · exact .inl hu
      · obtain ⟨last, same⟩ := List.getElem?_eq_some_iff.mp hu
        rw [List.length_singleton] at last
        exact .inr ⟨by omega, by simpa using same⟩
    rcases place hs with hs | ⟨rfl, same⟩ <;> rcases place ht with ht | ⟨rfl, same'⟩
    · exact h.distinct hs ht
    · exact absurd (List.mem_of_getElem? hs) (new text same')
    · exact absurd (List.mem_of_getElem? ht) (new text same)
    · rfl

/-- What is not made by the parser stands behind the reserved terminals. -/
theorem two_le (h : Orderly kinds) (ht : kinds[t]? = some kind) (made : kind ≠ .reserved) : 2 ≤ t := by
  obtain ⟨others, rfl⟩ := h.reserved
  match t with
  | 0 | 1 => exact absurd (Option.some.inj ht).symm made
  | t + 2 => exact Nat.le_add_left 2 t

end TerminalKind.Orderly

/-! ## Declarations -/

namespace GrammarDraft

open TerminalKind

variable {draft : GrammarDraft α}

/-- A text without a terminal is none of the texts that have one. -/
theorem literal_notMem_of_literal? {text : String} (h : draft.literal? text = none) :
    .literal text ∉ kindsOf draft.terminals := by
  intro there
  obtain ⟨terminal, hterminal, kind⟩ := List.mem_map.mp there
  have missed := List.findIdx?_eq_none_iff.mp h terminal hterminal
  rw [kind] at missed
  simp at missed

theorem orderly_literal (h : Orderly (kindsOf draft.terminals)) (text : String) :
    Orderly (kindsOf (draft.literal text).1.terminals) := by
  rw [literal]
  split
  · exact h
  · rename_i missed
    rw [kindsOf, List.map_append]
    refine h.snoc fun other same => ?_
    cases same
    exact literal_notMem_of_literal? missed

/-- Precedence leaves the kinds as they are. -/
theorem kindsOf_group (draft : GrammarDraft α) (associativity : Associativity) (terminals : List Nat) :
    kindsOf (draft.group associativity terminals).terminals = kindsOf draft.terminals :=
  draft.map_terminals_group (·.kind) (fun _ _ => rfl) associativity terminals

theorem Declared.orderly (h : draft.Declared) : Orderly (kindsOf draft.terminals) := by
  induction h with
  | empty => exact .initial
  | terminal h name regex value ih =>
    rw [GrammarDraft.terminal, kindsOf, List.map_append]
    exact ih.snoc fun text same => by cases same
  | literal h text ih => exact orderly_literal ih text
  | production h result symbols action ih =>
    exact resolve_keeps (fun draft => Orderly (kindsOf draft.terminals)) (fun _ => orderly_literal) ih symbols
  | group h associativity terminals ih => rwa [kindsOf_group]
  | ignore h regex ih => exact ih
  | nonTerminal h name ih => exact ih
  | lendPrecedence h production terminal ih => exact ih
  | start h n ih => exact ih
  | lexerOptions h options ih => exact ih

end GrammarDraft

/-- **The reserved terminals are the first, and no two terminals have the same text.** -/
theorem Grammar.Declared.orderly {grammar : Grammar α} (h : grammar.Declared) :
    TerminalKind.Orderly (kindsOf grammar.terminals) := by
  obtain ⟨draft, declared, finish⟩ := h
  rw [(GrammarDraft.finished_of_finish finish).terminals_eq]
  exact declared.orderly

/-! ## Rules -/

namespace Grammar

variable {grammar : Grammar α}

theorem getElem?_kindsOf {t : Nat} {kind : TerminalKind α} : (kindsOf grammar.terminals)[t]? = some kind ↔
    ∃ terminal, (terminal, t) ∈ grammar.terminals.zipIdx ∧ terminal.kind = kind := by
  rw [kindsOf, List.getElem?_map, Option.map_eq_some_iff]
  exact exists_congr fun terminal => and_congr_left fun _ => (List.mem_zipIdx_iff_getElem? (x := (terminal, t))).symm

theorem mem_literalRules [Inhabited α] {rule : LexerRule α} : rule ∈ grammar.literalRules ↔
    ∃ text t, (kindsOf grammar.terminals)[t]? = some (.literal text) ∧
      rule = ⟨escapeLiteral text, some ⟨t, fun _ => default⟩⟩ := by
  rw [literalRules, List.mem_filterMap]
  constructor
  · rintro ⟨⟨terminal, t⟩, there, made⟩
    dsimp only at made
    split at made
    · rename_i text kind
      cases made
      exact ⟨text, t, getElem?_kindsOf.mpr ⟨terminal, there, kind⟩, rfl⟩
    · cases made
  · rintro ⟨text, t, isWord, rfl⟩
    obtain ⟨terminal, there, kind⟩ := getElem?_kindsOf.mp isWord
    refine ⟨(terminal, t), there, ?_⟩
    dsimp only
    rw [kind]

theorem mem_patternRules {rule : LexerRule α} : rule ∈ grammar.patternRules ↔
    ∃ regex value t, (kindsOf grammar.terminals)[t]? = some (.pattern regex value) ∧ rule = ⟨regex, some ⟨t, value⟩⟩ := by
  rw [patternRules, List.mem_filterMap]
  constructor
  · rintro ⟨⟨terminal, t⟩, there, made⟩
    dsimp only at made
    split at made
    · rename_i regex value kind
      cases made
      exact ⟨regex, value, t, getElem?_kindsOf.mpr ⟨terminal, there, kind⟩, rfl⟩
    · cases made
  · rintro ⟨regex, value, t, isPattern, rfl⟩
    obtain ⟨terminal, there, kind⟩ := getElem?_kindsOf.mp isPattern
    refine ⟨(terminal, t), there, ?_⟩
    dsimp only
    rw [kind]

end Grammar
end TableParsing
