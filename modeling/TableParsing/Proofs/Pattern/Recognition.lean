import Mathlib.Algebra.Ring.Int.Defs
import TableParsing.Proofs.Pattern.Phrase
import TableParsing.Proofs.Except

/-! # Which patterns are accepted

Every list of tokens that spells alternatives is accepted (`Phrase.operationsOf_eq`).  This module shows that nothing
else is, and what is wrong with the rest.

Reordering fails for tokens whose parentheses do not match and for no others.  What it puts out has a total **gain**
of languages that does not depend on the order: a set of characters adds one language, and an operator with two operands
takes one away.  With signs for concatenation the gain cannot exceed one, and it is one only if every token stands where
the phrases have one of its kind (`gain_withSigns`).  Then the tokens spell alternatives, because what was read at
any point is the beginning of some (`Begun`). -/

namespace TableParsing

/-! ## Parentheses -/

/-- Whether every parenthesis has its partner, when `depth` are open. -/
def Balanced : Nat → List PatternToken → Prop
  | depth, [] => depth = 0
  | depth, .opening :: rest => Balanced (depth + 1) rest
  | 0, .closing :: _ => False
  | depth + 1, .closing :: rest => Balanced depth rest
  | depth, .operation _ :: rest => Balanced depth rest

theorem balanced_withSigns (depth : Nat) (ended : Bool) (tokens : List PatternToken) :
    Balanced depth (withSigns ended tokens) ↔ Balanced depth tokens := by
  induction tokens generalizing depth ended with
  | nil => rfl
  | cons token rest ih =>
    have sign : Balanced depth (withSigns ended (token :: rest)) ↔
        Balanced depth (token :: withSigns token.endsOperand rest) := by
      rw [withSigns]
      split <;> rfl
    rw [sign]
    cases token with
    | operation op => exact ih depth _
    | opening => exact ih (depth + 1) _
    | closing =>
      cases depth with
      | zero => rfl
      | succ depth => exact ih depth _

/-- The number of parentheses that are open on the stack. -/
def openGroups (stack : List Waiting) : Nat :=
  stack.countP fun | .group _ => true | .operator _ _ => false

@[simp] theorem openGroups_waiting (pending : List (PatternOp × PatternPlace)) (stack : List Waiting) :
    openGroups (waiting pending ++ stack) = openGroups stack := by
  simp [openGroups, waiting, List.countP_map, Function.comp_def]

@[simp] theorem openGroups_waiting_only (pending : List (PatternOp × PatternPlace)) :
    openGroups (waiting pending) = 0 := by
  rw [← List.append_nil (waiting pending), openGroups_waiting]
  rfl

@[simp] theorem openGroups_group (place : PatternPlace) (stack : List Waiting) :
    openGroups (.group place :: stack) = openGroups stack + 1 :=
  List.countP_cons_of_pos rfl

@[simp] theorem openGroups_operator (op : PatternOp) (place : PatternPlace) (stack : List Waiting) :
    openGroups (.operator op place :: stack) = openGroups stack :=
  List.countP_cons_of_neg (by simp)

/-! ## Gains -/

/-- The number of languages that the operation adds to the stack. -/
def PatternOp.gain (op : PatternOp) : Int := 1 - op.operands

/-- The number of languages that the operation of the token adds to the stack. -/
def PatternToken.gain : PatternToken → Int
  | operation op => op.gain
  | opening | closing => 0

/-- The number of languages that what waits will add to the stack. -/
def Waiting.gain : Waiting → Int
  | operator op _ => op.gain
  | group _ => 0

/-- The total gain of operations. -/
def gainOf (ops : List (PatternOp × PatternPlace)) : Int := (ops.map (·.1.gain)).sum

/-- The total gain of tokens, and of what waits for its place among them. -/
def gainOfTokens (tokens : List PatternToken) (stack : List Waiting) : Int :=
  (tokens.map PatternToken.gain).sum + (stack.map Waiting.gain).sum

@[simp] theorem gainOf_append (front back : List (PatternOp × PatternPlace)) :
    gainOf (front ++ back) = gainOf front + gainOf back := by
  simp [gainOf]

@[simp] theorem gainOf_cons (op : PatternOp) (place : PatternPlace) (rest : List (PatternOp × PatternPlace)) :
    gainOf ((op, place) :: rest) = op.gain + gainOf rest :=
  rfl

theorem gainOfTokens_cons (token : PatternToken) (rest : List PatternToken) (stack : List Waiting) :
    gainOfTokens (token :: rest) stack = token.gain + gainOfTokens rest stack := by
  simp [gainOfTokens, Int.add_assoc]

theorem gainOfTokens_push (tokens : List PatternToken) (top : Waiting) (stack : List Waiting) :
    gainOfTokens tokens (top :: stack) = top.gain + gainOfTokens tokens stack := by
  simp only [gainOfTokens, List.map_cons, List.sum_cons]
  omega

theorem gainOfTokens_waiting (tokens : List PatternToken) (pending : List (PatternOp × PatternPlace))
    (stack : List Waiting) :
    gainOfTokens tokens (waiting pending ++ stack) = gainOf pending + gainOfTokens tokens stack := by
  induction pending with
  | nil => exact (Int.zero_add _).symm
  | cons p pending ih =>
    obtain ⟨op, place⟩ := p
    have step : gainOfTokens tokens (waiting ((op, place) :: pending) ++ stack) =
        op.gain + gainOfTokens tokens (waiting pending ++ stack) := gainOfTokens_push _ _ _
    rw [step, ih, gainOf_cons, Int.add_assoc]

/-- The operations that are accepted leave exactly one language. -/
theorem gain_of_checkHeight {text : List Char} {height : Nat} {ops : List (PatternOp × PatternPlace)}
    (h : checkHeight text height ops = .ok ()) : height + gainOf ops = 1 := by
  induction ops generalizing height with
  | nil =>
    match height with
    | 0 => cases h
    | 1 => rfl
    | height + 2 => cases h
  | cons first rest ih =>
    obtain ⟨op, place⟩ := first
    rw [checkHeight] at h
    split at h
    · cases h
    · have total := ih h
      rw [gainOf_cons, PatternOp.gain]
      omega

/-- The operations that are not accepted lack an operand, or there are none. -/
theorem cause_of_checkHeight {text : List Char} {height : Nat} {ops : List (PatternOp × PatternPlace)}
    {fault : PatternFault} (h : checkHeight text height ops = .error fault) :
    fault.cause = .missingOperand ∨ fault.cause = .emptyPattern := by
  induction ops generalizing height with
  | nil =>
    match height with
    | 0 =>
      cases h
      exact .inr rfl
    | 1 => cases h
    | height + 2 =>
      cases h
      exact .inl rfl
  | cons first rest ih =>
    rw [checkHeight] at h
    split at h
    · cases h
      exact .inl rfl
    · exact ih h

/-! ## Reordering -/

/-- A stack holds operators only, or some above an open parenthesis. -/
theorem exists_waiting (stack : List Waiting) :
    (∃ pending, stack = waiting pending) ∨ ∃ pending place below, stack = waiting pending ++ .group place :: below := by
  induction stack with
  | nil => exact .inl ⟨[], rfl⟩
  | cons top stack ih =>
    match top with
    | .group place => exact .inr ⟨[], place, stack, rfl⟩
    | .operator op place =>
      rcases ih with ⟨pending, rfl⟩ | ⟨pending, opened, below, rfl⟩
      · exact .inl ⟨(op, place) :: pending, rfl⟩
      · exact .inr ⟨(op, place) :: pending, opened, below, rfl⟩

theorem popGroup?_eq_none (pending : List (PatternOp × PatternPlace)) : popGroup? (waiting pending) = none := by
  induction pending with
  | nil => rfl
  | cons p pending ih =>
    rw [waiting] at ih
    rw [waiting, List.map_cons, popGroup?, ih, Option.map_none]

theorem popAll_group (pending : List (PatternOp × PatternPlace)) (place : PatternPlace) (below : List Waiting) :
    popAll (waiting pending ++ .group place :: below) = .error ⟨.unbalancedParenthesis, place⟩ := by
  induction pending with
  | nil => rfl
  | cons p pending ih =>
    rw [waiting] at ih
    rw [waiting, List.map_cons, List.cons_append, popAll, ih]
    rfl

/-- What is popped and what is kept make up the stack. -/
theorem waiting_popStronger (s : Nat) (stack : List Waiting) :
    waiting (popStronger s stack).1 ++ (popStronger s stack).2 = stack := by
  induction stack with
  | nil => rfl
  | cons top stack ih =>
    match top with
    | .group place => rfl
    | .operator op place =>
      rw [popStronger]
      split
      · exact congrArg (.operator op place :: ·) ih
      · rfl

/-- What becomes of tokens that are balanced or not, with the total gain of what is put out. -/
inductive Reordering (balanced : Prop) (gain : Int) : Except PatternFault (List (PatternOp × PatternPlace)) → Prop
  | done {ops : List (PatternOp × PatternPlace)} (h : balanced) (total : gainOf ops = gain) :
    Reordering balanced gain (.ok ops)
  | failed {place : PatternPlace} (h : ¬balanced) : Reordering balanced gain (.error ⟨.unbalancedParenthesis, place⟩)

theorem Reordering.append {balanced : Prop} {gain : Int}
    {result : Except PatternFault (List (PatternOp × PatternPlace))}
    (h : Reordering balanced gain result) (out : List (PatternOp × PatternPlace)) :
    Reordering balanced (gainOf out + gain) ((out ++ ·) <$> result) := by
  cases h with
  | done h total => exact .done h (by rw [gainOf_append, total])
  | failed h => exact .failed h

theorem PatternOp.exists_accept_or_strength_pos (op : PatternOp) : (∃ set, op = accept set) ∨ 0 < op.strength := by
  cases op with
  | accept set => exact .inl ⟨set, rfl⟩
  | _ => exact .inr (Nat.succ_pos _)

/-- **Tokens are reordered if they are balanced, and then nothing is gained or lost.** -/
theorem reordering_toPostfix (tokens : List (PatternToken × PatternPlace)) (stack : List Waiting) :
    Reordering (Balanced (openGroups stack) (bare tokens)) (gainOfTokens (bare tokens) stack)
      (toPostfix tokens stack) := by
  induction tokens generalizing stack with
  | nil =>
    rcases exists_waiting stack with ⟨pending, rfl⟩ | ⟨pending, place, below, rfl⟩
    · have gain : gainOfTokens [] (waiting pending) = gainOf pending := by
        have h := gainOfTokens_waiting [] pending []
        rw [List.append_nil] at h
        exact h.trans (Int.add_zero _)
      rw [toPostfix, popAll_waiting]
      exact .done (openGroups_waiting_only pending) gain.symm
    · rw [toPostfix, popAll_group]
      exact .failed (by simp [Balanced])
  | cons first rest ih =>
    obtain ⟨token, place⟩ := first
    rw [bare, List.map_cons, gainOfTokens_cons]
    cases token with
    | opening =>
      have h := ih (.group place :: stack)
      rw [openGroups_group, gainOfTokens_push] at h
      rw [toPostfix]
      exact h
    | closing =>
      rw [toPostfix]
      rcases exists_waiting stack with ⟨pending, rfl⟩ | ⟨pending, opened, below, rfl⟩
      · rw [popGroup?_eq_none, openGroups_waiting_only]
        exact .failed id
      · have h := (ih below).append pending
        rw [popGroup?_waiting, gainOfTokens_waiting, gainOfTokens_push, openGroups_waiting, openGroups_group]
        simpa [Balanced, Waiting.gain, PatternToken.gain] using h
    | operation op =>
      rcases op.exists_accept_or_strength_pos with ⟨set, rfl⟩ | hop
      · exact (ih stack).append [(.accept set, place)]
      · have whole := waiting_popStronger op.strength stack
        rw [toPostfix_operator hop]
        generalize popStronger op.strength stack = popped at whole ⊢
        have h := (ih (.operator op place :: popped.2)).append popped.1
        rw [openGroups_operator, gainOfTokens_push] at h
        rw [← whole, openGroups_waiting, gainOfTokens_waiting, Int.add_left_comm]
        exact h

/-! ## The place of a token -/

/-- Whether every token that does not begin an operand stands behind the end of one, and so does the end of the list. -/
def WellPlaced : Bool → List PatternToken → Prop
  | ended, [] => ended = true
  | ended, token :: rest => (ended || token.beginsOperand) = true ∧ WellPlaced token.endsOperand rest

/-- What the tokens can gain at most: behind the end of an operand nothing. -/
def gainBound (ended : Bool) : Int := if ended then 0 else 1

theorem PatternToken.gain_add_gainBound (token : PatternToken) :
    token.gain + gainBound token.endsOperand = if token.beginsOperand then 1 else 0 := by
  match token with
  | .opening | .closing => rfl
  | .operation op => cases op <;> rfl

/-- **The gain of tokens with their signs is as high as it can be only if they are well placed.** -/
theorem gain_withSigns (ended : Bool) (tokens : List PatternToken) :
    gainOfTokens (withSigns ended tokens) [] ≤ gainBound ended ∧
      (gainOfTokens (withSigns ended tokens) [] = gainBound ended → WellPlaced ended tokens) := by
  induction tokens generalizing ended with
  | nil => cases ended <;> simp [withSigns, gainOfTokens, gainBound, WellPlaced]
  | cons token rest ih =>
    obtain ⟨bound, placed⟩ := ih token.endsOperand
    have sum := token.gain_add_gainBound
    have gain : gainOfTokens (withSigns ended (token :: rest)) [] =
        (if ended && token.beginsOperand then -1 else 0) + token.gain +
          gainOfTokens (withSigns token.endsOperand rest) [] := by
      rw [withSigns]
      split
      · rw [List.singleton_append, gainOfTokens_cons, gainOfTokens_cons, Int.add_assoc]
        rfl
      · rw [List.nil_append, gainOfTokens_cons, Int.zero_add]
    -- a token loses nothing where an operand ended in front of it or begins with it
    have step : (if ended && token.beginsOperand then -1 else 0) + (if token.beginsOperand then 1 else 0) =
        if ended || token.beginsOperand then gainBound ended else gainBound ended - 1 := by
      cases ended <;> cases token.beginsOperand <;> rfl
    rw [gain, WellPlaced]
    generalize (if ended && token.beginsOperand then (-1 : Int) else 0) = sign at step ⊢
    rw [← sum] at step
    by_cases here : (ended || token.beginsOperand) = true
    · rw [if_pos here] at step
      exact ⟨by omega, fun h => ⟨here, placed (by omega)⟩⟩
    · rw [if_neg here] at step
      exact ⟨by omega, fun h => absurd h (by omega)⟩

/-! ## Beginnings of phrases -/

/-- Whether the token can be read: there is no way to write concatenation. -/
def PatternToken.IsWritten (token : PatternToken) : Prop := token ≠ .operation .concat

/-- The last sequence of alternatives can be put in place of another. -/
theorem Phrase.exists_last (x : Phrase .alternatives) : ∃ front, ∃ last : Phrase .sequence,
    x.tokens = front ++ last.tokens ∧ ∀ last' : Phrase .sequence, ∃ y : Phrase .alternatives,
      y.tokens = front ++ last'.tokens := by
  cases x with
  | ofSequence x => exact ⟨[], x, rfl, fun last' => ⟨.ofSequence last', rfl⟩⟩
  | barred x y =>
    refine ⟨x.tokens ++ [.operation .alternate], y, by simp [tokens], fun last' => ⟨.barred x last', ?_⟩⟩
    simp [tokens]

/-- Whether the tokens begin the alternatives of one group, up to the end of an operand or not. -/
def BegunGroup : Bool → List PatternToken → Prop
  | true, tokens => ∃ x : Phrase .alternatives, x.tokens = tokens
  | false, tokens => tokens = [] ∨ ∃ x : Phrase .alternatives, x.tokens ++ [.operation .alternate] = tokens

namespace BegunGroup

theorem nil : BegunGroup false [] := .inl rfl

variable {ended : Bool} {tokens : List PatternToken} {op : PatternOp}

theorem atom (h : BegunGroup ended tokens) (x : Phrase .atom) : BegunGroup true (tokens ++ x.tokens) := by
  cases ended with
  | true =>
    obtain ⟨y, rfl⟩ := h
    obtain ⟨front, last, hy, replace⟩ := y.exists_last
    obtain ⟨z, hz⟩ := replace (.followed last (.ofAtom x))
    exact ⟨z, by rw [hz, hy, Phrase.tokens, Phrase.tokens, List.append_assoc]⟩
  | false =>
    rcases h with rfl | ⟨y, rfl⟩
    · exact ⟨.ofSequence (.ofRepetition (.ofAtom x)), rfl⟩
    · exact ⟨.barred y (.ofRepetition (.ofAtom x)), by simp [Phrase.tokens]⟩

theorem repeated (h : BegunGroup true tokens) (hop : op.IsPostfix) : BegunGroup true (tokens ++ [.operation op]) := by
  obtain ⟨y, rfl⟩ := h
  obtain ⟨front, last, hy, replace⟩ := y.exists_last
  cases last with
  | ofRepetition x =>
    obtain ⟨z, hz⟩ := replace (.ofRepetition (.repeated x op hop))
    exact ⟨z, by simp [hz, hy, Phrase.tokens]⟩
  | followed w x =>
    obtain ⟨z, hz⟩ := replace (.followed w (.repeated x op hop))
    exact ⟨z, by simp [hz, hy, Phrase.tokens]⟩

theorem operation (h : BegunGroup ended tokens) (written : (PatternToken.operation op).IsWritten)
    (placed : (ended || (PatternToken.operation op).beginsOperand) = true) :
    BegunGroup (PatternToken.operation op).endsOperand (tokens ++ [.operation op]) := by
  cases op with
  | accept set => exact h.atom (.accept set)
  | concat => exact absurd rfl written
  | alternate =>
    cases ended with
    | true =>
      obtain ⟨x, rfl⟩ := h
      exact .inr ⟨x, rfl⟩
    | false => cases placed
  | star | plus | optional | «repeat» min max =>
    cases ended with
    | true => exact h.repeated trivial
    | false => cases placed

end BegunGroup

/-- Whether the tokens begin alternatives, with `depth` groups open, up to the end of an operand or not. -/
inductive Begun : Nat → Bool → List PatternToken → Prop
  | outer {ended : Bool} {tokens : List PatternToken} (h : BegunGroup ended tokens) : Begun 0 ended tokens
  | inner {depth : Nat} {before ended : Bool} {front tokens : List PatternToken} (h : Begun depth before front)
      (inside : BegunGroup ended tokens) : Begun (depth + 1) ended (front ++ .opening :: tokens)

namespace Begun
variable {depth : Nat} {ended : Bool} {tokens : List PatternToken} {op : PatternOp}

theorem atom (h : Begun depth ended tokens) (x : Phrase .atom) : Begun depth true (tokens ++ x.tokens) := by
  cases h with
  | outer h => exact .outer (h.atom x)
  | inner h inside =>
    rw [List.append_assoc, List.cons_append]
    exact .inner h (inside.atom x)

theorem operation (h : Begun depth ended tokens) (written : (PatternToken.operation op).IsWritten)
    (placed : (ended || (PatternToken.operation op).beginsOperand) = true) :
    Begun depth (PatternToken.operation op).endsOperand (tokens ++ [.operation op]) := by
  cases h with
  | outer h => exact .outer (h.operation written placed)
  | inner h inside =>
    rw [List.append_assoc, List.cons_append]
    exact .inner h (inside.operation written placed)

/-- A group that is closed is an atom of the group around it. -/
theorem close (h : Begun (depth + 1) true tokens) : Begun depth true (tokens ++ [.closing]) := by
  cases h with
  | inner h inside =>
    obtain ⟨x, rfl⟩ := inside
    have group := h.atom (.group x)
    rwa [Phrase.tokens, ← List.cons_append, ← List.append_assoc] at group

/-- **What is begun and goes on well placed and balanced spells alternatives.** -/
theorem exists_phrase (h : Begun depth ended tokens) {rest : List PatternToken} (written : ∀ t ∈ rest, t.IsWritten)
    (placed : WellPlaced ended rest) (balanced : Balanced depth rest) :
    ∃ x : Phrase .alternatives, x.tokens = tokens ++ rest := by
  induction rest generalizing depth ended tokens with
  | nil =>
    cases placed
    cases balanced
    cases h with
    | outer h =>
      obtain ⟨x, hx⟩ := h
      exact ⟨x, by rw [hx, List.append_nil]⟩
  | cons token rest ih =>
    obtain ⟨here, placed⟩ := placed
    have written' : ∀ t ∈ rest, t.IsWritten := fun t ht => written t (List.mem_cons_of_mem _ ht)
    -- the token goes to what was read
    rw [List.append_cons]
    match token, depth with
    | .operation op, depth => exact ih (h.operation (written _ List.mem_cons_self) here) written' placed balanced
    | .opening, depth => exact ih (.inner h .nil) written' placed balanced
    | .closing, 0 => exact balanced.elim
    | .closing, depth + 1 =>
      cases ended with
      | true => exact ih h.close written' placed balanced
      | false => cases here

end Begun

/-! ## Whole patterns -/

theorem exists_of_readRepeat {rest : List Char} {read : Read PatternOp rest} (h : readRepeat rest = .ok read) :
    ∃ min max, read.value = .repeat min max := by
  simp only [readRepeat] at h
  repeat' split at h
  all_goals cases h
  all_goals exact ⟨_, _, rfl⟩

theorem isWritten_of_readToken {c : Char} {rest : List Char} {read : Read PatternToken (c :: rest)}
    (h : readToken c rest = .ok read) : read.value.IsWritten := by
  simp only [readToken] at h
  split at h
  · obtain ⟨r, -, rfl⟩ := Except.map_eq_ok_iff.mp h
    nofun
  · split at h
    · obtain ⟨r, hr, rfl⟩ := Except.map_eq_ok_iff.mp h
      obtain ⟨min, max, value⟩ := exists_of_readRepeat hr
      change PatternToken.operation r.value ≠ _
      rw [value]
      nofun
    · split at h
      · obtain ⟨r, -, rfl⟩ := Except.map_eq_ok_iff.mp h
        nofun
      · cases h
        simp only [Read.one]
        split <;> nofun

theorem isWritten_of_readTokens {text : List Char} {tokens : List (PatternToken × PatternPlace)}
    (h : readTokens text = .ok tokens) : ∀ t ∈ bare tokens, t.IsWritten := by
  induction text using readTokens.induct generalizing tokens with
  | case1 =>
    rw [readTokens] at h
    cases h
    nofun
  | case2 c rest ih =>
    rw [readTokens] at h
    obtain ⟨read, hread, h⟩ := Except.bind_eq_ok_iff.mp h
    obtain ⟨behind, hbehind, h⟩ := Except.bind_eq_ok_iff.mp h
    cases h
    rw [bare, List.map_cons, List.forall_mem_cons]
    exact ⟨isWritten_of_readToken hread, ih read hbehind⟩

/-- Operations are those of alternatives that the tokens spell. -/
theorem exists_phrase_of_operationsOf {text : List Char} {tokens : List (PatternToken × PatternPlace)}
    {ops : List PatternOp} (written : ∀ t ∈ bare tokens, t.IsWritten) (h : operationsOf text tokens = .ok ops) :
    ∃ x : Phrase .alternatives, x.tokens = bare tokens ∧ x.ops = ops := by
  obtain ⟨ordered, hordered, h'⟩ := Except.bind_eq_ok_iff.mp h
  obtain ⟨_, height, _⟩ := Except.bind_eq_ok_iff.mp h'
  have reordering := reordering_toPostfix (markConcat tokens) []
  rw [hordered, bare_markConcat] at reordering
  cases reordering with
  | done balanced total =>
    have gain : gainOf ordered = 1 := (Int.zero_add _).symm.trans (gain_of_checkHeight height)
    have placed := (gain_withSigns false (bare tokens)).2 (total.symm.trans gain)
    have begun : Begun 0 false [] := .outer .nil
    obtain ⟨x, hx⟩ := begun.exists_phrase written placed ((balanced_withSigns _ _ _).mp balanced)
    have whole := x.operationsOf_eq text hx.symm
    rw [h] at whole
    exact ⟨x, hx, (Except.ok.inj whole).symm⟩

/-- A fault is a parenthesis without a partner, or an operator without an operand. -/
theorem cause_of_operationsOf {text : List Char} {tokens : List (PatternToken × PatternPlace)}
    {fault : PatternFault} (h : operationsOf text tokens = .error fault) :
    (fault.cause = .unbalancedParenthesis ↔ ¬Balanced 0 (bare tokens)) ∧
      (Balanced 0 (bare tokens) → fault.cause = .missingOperand ∨ fault.cause = .emptyPattern) := by
  have reordering := reordering_toPostfix (markConcat tokens) []
  rw [bare_markConcat] at reordering
  have balanced_iff : Balanced 0 (withSigns false (bare tokens)) ↔ Balanced 0 (bare tokens) := balanced_withSigns _ _ _
  rw [operationsOf] at h
  generalize toPostfix (markConcat tokens) [] = result at h reordering
  cases reordering with
  | failed unbalanced =>
    cases h
    have unbalanced := mt balanced_iff.mpr unbalanced
    exact ⟨iff_of_true rfl unbalanced, fun balanced => absurd balanced unbalanced⟩
  | @done ops balanced _ =>
    have cause : fault.cause = .missingOperand ∨ fault.cause = .emptyPattern := by
      change (checkHeight text 0 ops >>= fun _ => pure (ops.map Prod.fst)) = _ at h
      cases height : checkHeight text 0 ops with
      | ok _ =>
        rw [height] at h
        cases h
      | error _ =>
        rw [height] at h
        cases h
        exact cause_of_checkHeight height
    refine ⟨iff_of_false ?_ (not_not_intro (balanced_iff.mp balanced)), fun _ => cause⟩
    rcases cause with cause | cause <;> simp [cause]

/-- A pattern without characters has no operations for want of tokens already. -/
theorem ofPattern_eq {pattern : String} {tokens : List (PatternToken × PatternPlace)}
    (h : readTokens pattern.toList = .ok tokens) :
    PatternOp.ofPattern pattern = (operationsOf pattern.toList tokens).mapError fun fault =>
      ⟨pattern, pattern.toList.length - fault.place.length, fault.cause⟩ := by
  rw [PatternOp.ofPattern]
  cases htext : pattern.toList with
  | nil =>
    rw [htext, readTokens] at h
    cases h
    rfl
  | cons c rest =>
    rw [htext] at h
    simp only [List.isEmpty_cons, Bool.false_eq_true, if_false, h]
    rfl

/-- **A pattern is accepted if and only if its tokens spell alternatives, and has then their operations.**  The
parentheses of the others do not match, or an operator lacks an operand, or there is nothing. -/
theorem ofPattern_accepts_phrases {pattern : String} {tokens : List (PatternToken × PatternPlace)}
    (h : readTokens pattern.toList = .ok tokens) :
    (∀ ops, PatternOp.ofPattern pattern = .ok ops ↔
        ∃ x : Phrase .alternatives, x.tokens = bare tokens ∧ x.ops = ops) ∧
      ∀ error, PatternOp.ofPattern pattern = .error error →
        (error.cause = .unbalancedParenthesis ↔ ¬Balanced 0 (bare tokens)) ∧
        (Balanced 0 (bare tokens) → error.cause = .missingOperand ∨ error.cause = .emptyPattern) := by
  rw [ofPattern_eq h]
  constructor
  · intro ops
    constructor
    · intro hops
      cases parsed : operationsOf pattern.toList tokens with
      | error fault =>
        rw [parsed] at hops
        cases hops
      | ok ops' =>
        rw [parsed] at hops
        cases hops
        exact exists_phrase_of_operationsOf (isWritten_of_readTokens h) parsed
    · rintro ⟨x, hx, rfl⟩
      rw [x.operationsOf_eq _ hx.symm]
      rfl
  · intro error herror
    cases parsed : operationsOf pattern.toList tokens with
    | error fault =>
      rw [parsed] at herror
      cases herror
      exact cause_of_operationsOf parsed
    | ok ops =>
      rw [parsed] at herror
      cases herror

theorem ofPattern_accepts_phrases_group :
    readTokens "(a|b)*".toList = .ok [(.opening, "(a|b)*".toList), (.operation (.accept (.single 'a')), "a|b)*".toList),
      (.operation .alternate, "|b)*".toList), (.operation (.accept (.single 'b')), "b)*".toList),
      (.closing, ")*".toList), (.operation .star, "*".toList)] ∧
    ∃ x : Phrase .alternatives,
      x.tokens = [.opening, .operation (.accept (.single 'a')), .operation .alternate,
        .operation (.accept (.single 'b')), .closing, .operation .star] ∧
      x.ops = [.accept (.single 'a'), .accept (.single 'b'), .alternate, .star] := by
  have read : readTokens "(a|b)*".toList = .ok [(.opening, "(a|b)*".toList),
      (.operation (.accept (.single 'a')), "a|b)*".toList), (.operation .alternate, "|b)*".toList),
      (.operation (.accept (.single 'b')), "b)*".toList), (.closing, ")*".toList), (.operation .star, "*".toList)] := by
    cbv
  have ops : PatternOp.ofPattern "(a|b)*" = .ok [.accept (.single 'a'), .accept (.single 'b'), .alternate, .star] := by
    rw [ofPattern_eq read]
    rfl
  exact ⟨read, ((ofPattern_accepts_phrases read).1 _).mp ops⟩

end TableParsing
