import TableParsing.Proofs.CharSet.Basic
import TableParsing.Proofs.Pattern.Recognition

/-! # The sets of a pattern

However a set is written in a pattern, its ranges ascend, and there is a character in it: a class that is empty is
refused.  **So an edge that is labelled with a set of a pattern can be taken** (`isLabel_of_mem_ofPattern`). -/

namespace TableParsing

/-- A set that an edge may have for a label. -/
structure CharSet.IsLabel (set : CharSet) : Prop where
  wellFormed : set.WellFormed
  exists_mem : ∃ c, c ∈ set

variable {c : Char} {set : CharSet} {text rest : List Char}

namespace CharSet

theorem isLabel_single (c : Char) : (single c).IsLabel := ⟨wellFormed_single c, c, mem_insertChar.mpr (.inl rfl)⟩

theorem wellFormed_digit : digit.WellFormed := wellFormed_between _ _

theorem wellFormed_space : space.WellFormed := (wellFormed_between _ _).insertChar _

theorem wellFormed_word : word.WellFormed := (((wellFormed_between _ _).insert _).insert _).insertChar _

/-- A set of which some character is known. -/
theorem WellFormed.isLabel (h : set.WellFormed) (c : Char) (hc : set.contains c = true) : set.IsLabel :=
  ⟨h, c, contains_iff.mp hc⟩

theorem WellFormed.isLabel_of_isEmpty (h : set.WellFormed) (some : set.isEmpty = false) : set.IsLabel := by
  obtain ⟨r, hr⟩ := List.isEmpty_eq_false_iff_exists_mem.mp some
  exact ⟨h, r.lo, r, hr, r.lo_mem⟩

end CharSet

/-! ## Escapes and classes -/

theorem isLabel_of_escapeSet? (h : escapeSet? c = some set) : set.IsLabel := by
  rw [escapeSet?.eq_def] at h
  split at h
  case h_10 =>
    obtain ⟨-, same⟩ := Option.ite_none_left_eq_some.mp h
    cases same
    exact CharSet.isLabel_single _
  all_goals cases h
  · exact CharSet.wellFormed_digit.isLabel '0' (by decide)
  · exact CharSet.wellFormed_digit.complement.isLabel 'a' (by decide)
  · exact CharSet.wellFormed_space.isLabel ' ' (by decide)
  · exact CharSet.wellFormed_space.complement.isLabel 'a' (by decide)
  · exact CharSet.wellFormed_word.isLabel 'a' (by decide)
  · exact CharSet.wellFormed_word.complement.isLabel ' ' (by decide)
  all_goals exact CharSet.isLabel_single _

theorem isLabel_of_readEscape {read : Read CharSet (c :: rest)} (h : readEscape c rest = .ok read) :
    read.value.IsLabel := by
  rw [readEscape.eq_def] at h
  split at h
  · cases h
  · split at h
    · rename_i found
      cases h
      exact isLabel_of_escapeSet? found
    · cases h

theorem wellFormed_of_readElements {opened : PatternPlace} {isFirst : Bool} {read : Read CharSet text}
    (hset : set.WellFormed) (h : readElements opened set isFirst text = .ok read) : read.value.WellFormed := by
  induction set, isFirst, text using readElements.induct with
  | case1 set isFirst =>
    rw [readElements] at h
    cases h
  | case2 set isFirst c rest last =>
    rw [readElements, if_pos last] at h
    cases h
    exact hset
  | case3 set isFirst c rest more afterSet afterChar afterHyphen afterRange =>
    rw [readElements, if_neg more] at h
    obtain ⟨low, hlow, h⟩ := Except.bind_eq_ok_iff.mp h
    cases value : low.value with
    | set s =>
      rw [value] at h
      obtain ⟨behind, hbehind, h⟩ := Except.bind_eq_ok_iff.mp h
      cases h
      exact afterSet low s (hset.union s) hbehind
    | char lo =>
      rw [value] at h
      obtain ⟨high?, hhigh, h⟩ := Except.bind_eq_ok_iff.mp h
      cases high? with
      | none =>
        obtain ⟨behind, hbehind, h⟩ := Except.bind_eq_ok_iff.mp h
        cases h
        exact afterChar low lo (hset.insertChar lo) hbehind
      | some high =>
        dsimp only at h
        cases value' : high.value with
        | set s =>
          rw [value'] at h
          obtain ⟨behind, hbehind, h⟩ := Except.bind_eq_ok_iff.mp h
          cases h
          exact afterHyphen low lo high s (((hset.insertChar lo).insertChar '-').union s) hbehind
        | char hi =>
          rw [value'] at h
          dsimp only at h
          split at h
          · cases h
          · rename_i r hr
            obtain ⟨behind, hbehind, h⟩ := Except.bind_eq_ok_iff.mp h
            cases h
            exact afterRange low high r (hset.insert r) hbehind

theorem isLabel_of_readClass {read : Read CharSet rest} (h : readClass rest = .ok read) : read.value.IsLabel := by
  have wellFormed : ∀ read, readNegatable ('[' :: rest) rest = .ok read → read.value.WellFormed := by
    intro read h
    rw [readNegatable.eq_def] at h
    split at h
    · obtain ⟨r, hr, rfl⟩ := Except.map_eq_ok_iff.mp h
      exact (wellFormed_of_readElements CharSet.wellFormed_empty hr).complement
    · exact wellFormed_of_readElements CharSet.wellFormed_empty h
  obtain ⟨r, hr, h⟩ := Except.bind_eq_ok_iff.mp h
  split at h
  · cases h
  · rename_i some
    cases h
    exact (wellFormed _ hr).isLabel_of_isEmpty (Bool.eq_false_iff.mpr some)

/-! ## Whole patterns -/

theorem isLabel_of_readToken {read : Read PatternToken (c :: rest)} (h : readToken c rest = .ok read)
    (accept : read.value = .operation (.accept set)) : set.IsLabel := by
  simp only [readToken] at h
  split at h
  · obtain ⟨r, hr, rfl⟩ := Except.map_eq_ok_iff.mp h
    cases accept
    exact isLabel_of_readClass hr
  · split at h
    · obtain ⟨r, hr, rfl⟩ := Except.map_eq_ok_iff.mp h
      obtain ⟨min, max, value⟩ := exists_of_readRepeat hr
      change PatternToken.operation r.value = _ at accept
      rw [value] at accept
      cases accept
    · split at h
      · obtain ⟨r, hr, rfl⟩ := Except.map_eq_ok_iff.mp h
        cases accept
        exact isLabel_of_readEscape hr
      · cases h
        simp only [Read.one] at accept
        split at accept <;> cases accept
        · exact (CharSet.wellFormed_between _ _).isLabel 'a' (by decide)
        · exact CharSet.isLabel_single _

theorem isLabel_of_readTokens {tokens : List (PatternToken × PatternPlace)} (h : readTokens text = .ok tokens)
    (accept : .operation (.accept set) ∈ bare tokens) : set.IsLabel := by
  induction text using readTokens.induct generalizing tokens with
  | case1 =>
    rw [readTokens] at h
    cases h
    cases accept
  | case2 c rest ih =>
    rw [readTokens] at h
    obtain ⟨read, hread, h⟩ := Except.bind_eq_ok_iff.mp h
    obtain ⟨behind, hbehind, h⟩ := Except.bind_eq_ok_iff.mp h
    cases h
    rcases List.mem_cons.mp accept with same | accept
    · exact isLabel_of_readToken hread same.symm
    · exact ih read hbehind accept

/-- The sets of the operations of a phrase are those of its tokens. -/
theorem Phrase.accept_mem_tokens {kind : PhraseKind} (x : Phrase kind) (h : .accept set ∈ x.ops) :
    .operation (.accept set) ∈ x.tokens := by
  induction x with
  | accept s => simpa [ops, tokens] using h
  | group inner ih => exact List.mem_cons_of_mem _ (List.mem_append_left _ (ih h))
  | ofAtom x ih | ofRepetition x ih | ofSequence x ih => exact ih h
  | repeated x op isPostfix ih =>
    rcases List.mem_append.mp h with h | h
    · exact List.mem_append_left _ (ih h)
    · obtain rfl := List.mem_singleton.mp h
      exact isPostfix.elim
  | followed x y ihx ihy =>
    rcases List.mem_append.mp h with h | h
    · exact List.mem_append.mpr ((List.mem_append.mp h).imp ihx ihy)
    · cases List.mem_singleton.mp h
  | barred x y ihx ihy =>
    rcases List.mem_append.mp h with h | h
    · exact List.mem_append.mpr ((List.mem_append.mp h).imp ihx fun h => List.mem_cons_of_mem _ (ihy h))
    · cases List.mem_singleton.mp h

/-- A pattern with operations has tokens, whose operations they are. -/
theorem exists_tokens_of_ofPattern {pattern : String} {ops : List PatternOp}
    (h : PatternOp.ofPattern pattern = .ok ops) :
    ∃ tokens, readTokens pattern.toList = .ok tokens ∧ operationsOf pattern.toList tokens = .ok ops := by
  rw [PatternOp.ofPattern] at h
  split at h
  · cases h
  · cases read : readTokens pattern.toList with
    | error fault =>
      rw [read] at h
      cases h
    | ok tokens =>
      rw [read] at h
      change (operationsOf pattern.toList tokens).mapError _ = _ at h
      cases parsed : operationsOf pattern.toList tokens with
      | error fault =>
        rw [parsed] at h
        cases h
      | ok ops' =>
        rw [parsed] at h
        cases h
        exact ⟨tokens, rfl, parsed⟩

/-- **The sets of a pattern are labels.** -/
theorem isLabel_of_mem_ofPattern {pattern : String} {ops : List PatternOp} (h : PatternOp.ofPattern pattern = .ok ops)
    (accept : .accept set ∈ ops) : set.IsLabel := by
  obtain ⟨tokens, read, parsed⟩ := exists_tokens_of_ofPattern h
  obtain ⟨x, spelled, rfl⟩ := exists_phrase_of_operationsOf (isWritten_of_readTokens read) parsed
  exact isLabel_of_readTokens read (spelled ▸ x.accept_mem_tokens accept)

end TableParsing
