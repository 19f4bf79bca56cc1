import TableParsing.Pattern.Postfix

/-! # Phrases of a pattern

A pattern is built of **phrases** of four kinds.  Each kind binds its parts more tightly than the next one:

* an *atom* is a set of characters, or alternatives between parentheses,
* a *repetition* is an atom with any number of postfix operators behind it,
* a *sequence* is repetitions one behind the other,
* *alternatives* are sequences with bars between them.

Sequences and alternatives grow at their right end, so they associate to the left.  A phrase has its tokens from
left to right, and its operations in postfix order.  **The tokens of a phrase are reordered to its operations**
(`Phrase.reorders`): what waits on the stack behind a phrase binds at least as tightly as the phrase does, and what
waited before it does not. -/

namespace TableParsing

/-! ## Phrases -/

/-- Whether an operator stands behind its one operand. -/
def PatternOp.IsPostfix : PatternOp → Prop
  | star | plus | optional | «repeat» _ _ => True
  | accept _ | concat | alternate => False

/-- The kinds of phrases. -/
inductive PhraseKind where
  | atom
  | repetition
  | sequence
  | alternatives

/-- The strength of the weakest operator of a phrase outside parentheses. -/
def PhraseKind.strength : PhraseKind → Nat
  | atom => 4
  | repetition => 3
  | sequence => 2
  | alternatives => 1

/-- The phrases of each kind. -/
inductive Phrase : PhraseKind → Type
  /-- A set of characters. -/
  | accept (set : CharSet) : Phrase .atom
  /-- Alternatives between parentheses. -/
  | group (inner : Phrase .alternatives) : Phrase .atom
  | ofAtom (x : Phrase .atom) : Phrase .repetition
  /-- One more postfix operator. -/
  | repeated (x : Phrase .repetition) (op : PatternOp) (isPostfix : op.IsPostfix) : Phrase .repetition
  | ofRepetition (x : Phrase .repetition) : Phrase .sequence
  /-- One more repetition. -/
  | followed (x : Phrase .sequence) (y : Phrase .repetition) : Phrase .sequence
  | ofSequence (x : Phrase .sequence) : Phrase .alternatives
  /-- One more sequence behind a bar. -/
  | barred (x : Phrase .alternatives) (y : Phrase .sequence) : Phrase .alternatives

namespace Phrase

/-- The tokens from left to right. -/
def tokens {kind : PhraseKind} : Phrase kind → List PatternToken
  | accept set => [.operation (.accept set)]
  | group inner => .opening :: (inner.tokens ++ [.closing])
  | ofAtom x => x.tokens
  | repeated x op _ => x.tokens ++ [.operation op]
  | ofRepetition x => x.tokens
  | followed x y => x.tokens ++ y.tokens
  | ofSequence x => x.tokens
  | barred x y => x.tokens ++ .operation .alternate :: y.tokens

/-- The operations in postfix order. -/
def ops {kind : PhraseKind} : Phrase kind → List PatternOp
  | accept set => [.accept set]
  | group inner => inner.ops
  | ofAtom x => x.ops
  | repeated x op _ => x.ops ++ [op]
  | ofRepetition x => x.ops
  | followed x y => x.ops ++ y.ops ++ [.concat]
  | ofSequence x => x.ops
  | barred x y => x.ops ++ y.ops ++ [.alternate]

/-- The tokens with a sign for every concatenation. -/
def marked {kind : PhraseKind} : Phrase kind → List PatternToken
  | accept set => [.operation (.accept set)]
  | group inner => .opening :: (inner.marked ++ [.closing])
  | ofAtom x => x.marked
  | repeated x op _ => x.marked ++ [.operation op]
  | ofRepetition x => x.marked
  | followed x y => x.marked ++ .operation .concat :: y.marked
  | ofSequence x => x.marked
  | barred x y => x.marked ++ .operation .alternate :: y.marked

end Phrase

/-! ## Signs for concatenation -/

namespace PatternOp.IsPostfix
variable {op : PatternOp}

theorem endsOperand_eq (h : op.IsPostfix) : (PatternToken.operation op).endsOperand = true := by
  cases op <;> first | rfl | cases h

theorem beginsOperand_eq (h : op.IsPostfix) : (PatternToken.operation op).beginsOperand = false := by
  cases op <;> first | rfl | cases h

theorem strength_eq (h : op.IsPostfix) : op.strength = 3 := by
  cases op <;> first | rfl | cases h

theorem operands_eq (h : op.IsPostfix) : op.operands = 1 := by
  cases op <;> first | rfl | cases h

end PatternOp.IsPostfix

/-- The tokens of a list without their places. -/
abbrev bare (tokens : List (PatternToken × PatternPlace)) : List PatternToken := tokens.map Prod.fst

/-- The tokens with their signs, behind a token that ends an operand or one that does not. -/
def withSigns : Bool → List PatternToken → List PatternToken
  | _, [] => []
  | ended, token :: rest =>
    (if ended && token.beginsOperand then [.operation .concat] else []) ++ token :: withSigns token.endsOperand rest

theorem bare_markConcat (tokens : List (PatternToken × PatternPlace)) :
    bare (markConcat tokens) = withSigns false (bare tokens) := by
  induction tokens with
  | nil => rfl
  | cons first rest ih =>
    cases rest with
    | nil => rfl
    | cons second rest =>
      simp only [bare, List.map_cons, withSigns, Bool.false_and, Bool.false_eq_true, if_false, List.nil_append] at ih ⊢
      rw [markConcat]
      split <;> simp only [List.map_cons, List.cons_append, List.nil_append, ih]

namespace Phrase
variable {kind : PhraseKind}

/-- **A phrase gets the signs it leaves out**, and one in front of it when an operand ended there. -/
theorem withSigns_append (x : Phrase kind) (ended : Bool) (rest : List PatternToken) :
    withSigns ended (x.tokens ++ rest) =
      (if ended then [.operation .concat] else []) ++ x.marked ++ withSigns true rest := by
  induction x generalizing ended rest with
  | accept set => simp [tokens, marked, withSigns, PatternToken.beginsOperand, PatternToken.endsOperand]
  | group inner ih =>
    simp [tokens, marked, withSigns, PatternToken.beginsOperand, PatternToken.endsOperand, ih]
  | ofAtom x ih | ofRepetition x ih | ofSequence x ih => exact ih ended rest
  | repeated x op isPostfix ih =>
    simp [tokens, marked, withSigns, isPostfix.beginsOperand_eq, isPostfix.endsOperand_eq, ih]
  | followed x y ihx ihy => simp [tokens, marked, ihx, ihy]
  | barred x y ihx ihy =>
    simp [tokens, marked, withSigns, PatternToken.beginsOperand, PatternToken.endsOperand, ihx, ihy]

theorem bare_markConcat_eq (x : Phrase kind) {tokens : List (PatternToken × PatternPlace)}
    (h : bare tokens = x.tokens) : bare (markConcat tokens) = x.marked := by
  have signs := x.withSigns_append false []
  rw [List.append_nil] at signs
  rw [bare_markConcat, h, signs]
  simp [withSigns]

end Phrase

/-! ## Reordering -/

/-- Operators that wait. -/
def waiting (pending : List (PatternOp × PatternPlace)) : List Waiting :=
  pending.map fun p => .operator p.1 p.2

/-- Whether the stack keeps everything when an operator of this strength comes up. -/
def Yields (strength : Nat) (stack : List Waiting) : Prop :=
  ∀ op place, stack.head? = some (.operator op place) → op.strength < strength

theorem Yields.mono {s t : Nat} {stack : List Waiting} (h : Yields s stack) (hst : s ≤ t) : Yields t stack :=
  fun op place top => Nat.lt_of_lt_of_le (h op place top) hst

theorem popStronger_of_yields {s : Nat} {stack : List Waiting} (h : Yields s stack) :
    popStronger s stack = ([], stack) := by
  match stack with
  | [] => rfl
  | .group place :: stack => rfl
  | .operator op place :: stack => rw [popStronger, if_neg (Nat.not_le_of_lt (h op place rfl))]

theorem popStronger_waiting {s : Nat} {pending : List (PatternOp × PatternPlace)} {stack : List Waiting}
    (hpending : ∀ p ∈ pending, s ≤ p.1.strength) (h : Yields s stack) :
    popStronger s (waiting pending ++ stack) = (pending, stack) := by
  induction pending with
  | nil => exact popStronger_of_yields h
  | cons p pending ih =>
    have ih := ih fun q hq => hpending q (List.mem_cons_of_mem _ hq)
    rw [waiting] at ih
    rw [waiting, List.map_cons, List.cons_append, popStronger, if_pos (hpending p List.mem_cons_self), ih]

theorem popGroup?_waiting (pending : List (PatternOp × PatternPlace)) (place : PatternPlace) (stack : List Waiting) :
    popGroup? (waiting pending ++ .group place :: stack) = some (pending, stack) := by
  induction pending with
  | nil => rfl
  | cons p pending ih =>
    rw [waiting] at ih
    rw [waiting, List.map_cons, List.cons_append, popGroup?, ih, Option.map_some]

theorem popAll_waiting (pending : List (PatternOp × PatternPlace)) : popAll (waiting pending) = .ok pending := by
  induction pending with
  | nil => rfl
  | cons p pending ih =>
    rw [waiting] at ih
    rw [waiting, List.map_cons, popAll, ih]
    rfl

/-- Every operator but a set of characters goes onto the stack. -/
theorem toPostfix_operator {op : PatternOp} (hop : 0 < op.strength) (place : PatternPlace)
    (rest : List (PatternToken × PatternPlace)) (stack : List Waiting) :
    toPostfix ((.operation op, place) :: rest) stack =
      ((popStronger op.strength stack).1 ++ ·) <$>
        toPostfix rest (.operator op place :: (popStronger op.strength stack).2) := by
  cases op with
  | accept set => exact absurd hop (Nat.lt_irrefl 0)
  | _ => rw [toPostfix]; intro set h; cases h

/-- Whether the tokens are reordered to the operations, however they go on, on a stack that yields to `strength`: the
operations come out, up to some of at least that strength which are left waiting. -/
def Reorders (strength : Nat) (tokens : List PatternToken) (ops : List PatternOp) : Prop :=
  ∀ placed, bare placed = tokens → ∀ stack, Yields strength stack → ∃ out pending,
    (out ++ pending).map Prod.fst = ops ∧ (∀ p ∈ pending, strength ≤ p.1.strength) ∧
    ∀ rest, toPostfix (placed ++ rest) stack = (out ++ ·) <$> toPostfix rest (waiting pending ++ stack)

namespace Reorders
variable {s t : Nat} {tokens front back : List PatternToken} {ops frontOps backOps : List PatternOp} {op : PatternOp}

theorem mono (h : Reorders t tokens ops) (hst : s ≤ t) : Reorders s tokens ops := by
  intro placed hplaced stack yields
  obtain ⟨out, pending, hops, strong, post⟩ := h placed hplaced stack (yields.mono hst)
  exact ⟨out, pending, hops, fun p hp => Nat.le_trans hst (strong p hp), post⟩

theorem accept (s : Nat) (set : CharSet) : Reorders s [.operation (.accept set)] [.accept set] := by
  intro placed hplaced stack _
  obtain ⟨⟨_, place⟩, rfl, rfl⟩ := List.map_eq_singleton_iff.mp hplaced
  exact ⟨[(.accept set, place)], [], rfl, by simp, fun rest => rfl⟩

/-- Nothing that waited in a group is left behind it. -/
theorem group (h : Reorders s tokens ops) (t : Nat) : Reorders t (.opening :: (tokens ++ [.closing])) ops := by
  intro placed hplaced stack _
  obtain ⟨⟨_, opened⟩, behind, rfl, rfl, hbehind⟩ := List.map_eq_cons_iff.mp hplaced
  obtain ⟨inner, last, rfl, hinner, hlast⟩ := List.map_eq_append_iff.mp hbehind
  obtain ⟨⟨_, closed⟩, rfl, rfl⟩ := List.map_eq_singleton_iff.mp hlast
  obtain ⟨out, pending, hops, -, post⟩ := h inner hinner (.group opened :: stack) (by intro op place top; cases top)
  refine ⟨out ++ pending, [], by rwa [List.append_nil], by simp, fun rest => ?_⟩
  rw [List.cons_append, toPostfix, List.append_assoc, post]
  show (out ++ ·) <$> toPostfix ((.closing, closed) :: rest) _ = _
  rw [toPostfix, popGroup?_waiting]
  simp [waiting]

/-- Behind its first operand an operator waits alone, for the second one if there is any. -/
theorem operator (h : Reorders s front frontOps) (hop : op.strength = s) (hs : 0 < s) :
    ∀ placed, bare placed = front → ∀ place stack, Yields s stack → ∃ out, out.map Prod.fst = frontOps ∧
      ∀ rest, toPostfix (placed ++ (.operation op, place) :: rest) stack =
        (out ++ ·) <$> toPostfix rest (.operator op place :: stack) := by
  intro placed hplaced place stack yields
  obtain ⟨out, pending, hops, strong, post⟩ := h placed hplaced stack yields
  refine ⟨out ++ pending, hops, fun rest => ?_⟩
  rw [post, toPostfix_operator (hop ▸ hs), hop, popStronger_waiting strong yields]
  simp

theorem repeated (h : Reorders s front frontOps) (hop : op.strength = s) (hs : 0 < s) :
    Reorders s (front ++ [.operation op]) (frontOps ++ [op]) := by
  intro placed hplaced stack yields
  obtain ⟨first, last, rfl, hfirst, hlast⟩ := List.map_eq_append_iff.mp hplaced
  obtain ⟨⟨_, place⟩, rfl, rfl⟩ := List.map_eq_singleton_iff.mp hlast
  obtain ⟨out, hout, post⟩ := h.operator hop hs first hfirst place stack yields
  refine ⟨out, [(op, place)], by simp [hout], by simp [hop], fun rest => ?_⟩
  rw [List.append_assoc]
  exact post rest

theorem binary (hfront : Reorders s front frontOps) (hback : Reorders (s + 1) back backOps)
    (hop : op.strength = s) (hs : 0 < s) :
    Reorders s (front ++ .operation op :: back) (frontOps ++ backOps ++ [op]) := by
  intro placed hplaced stack yields
  obtain ⟨first, behind, rfl, hfirst, hbehind⟩ := List.map_eq_append_iff.mp hplaced
  obtain ⟨⟨_, place⟩, second, rfl, rfl, hsecond⟩ := List.map_eq_cons_iff.mp hbehind
  obtain ⟨out, hout, post⟩ := hfront.operator hop hs first hfirst place stack yields
  obtain ⟨out', pending, hops, strong, post'⟩ := hback second hsecond (.operator op place :: stack)
    (by rintro op place top; cases top; omega)
  refine ⟨out ++ out', pending ++ [(op, place)], ?_, ?_, fun rest => ?_⟩
  · rw [← hops, ← hout]
    simp
  · intro p hp
    rcases List.mem_append.mp hp with hp | hp
    · exact Nat.le_of_succ_le (strong p hp)
    · rw [List.mem_singleton.mp hp]
      exact Nat.le_of_eq hop.symm
  · rw [List.append_assoc, List.cons_append, post, post']
    simp [waiting]

end Reorders

namespace Phrase
variable {kind : PhraseKind}

/-- The tokens of a phrase are reordered to its operations. -/
theorem reorders (x : Phrase kind) : Reorders kind.strength x.marked x.ops := by
  induction x with
  | accept set => exact .accept _ set
  | group inner ih => exact ih.group _
  | ofAtom x ih | ofRepetition x ih | ofSequence x ih => exact ih.mono (by decide)
  | repeated x op isPostfix ih => exact ih.repeated isPostfix.strength_eq (by decide)
  | followed x y ihx ihy => exact ihx.binary ihy rfl (by decide)
  | barred x y ihx ihy => exact ihx.binary ihy rfl (by decide)

/-- The operations of a phrase add one language to the stack. -/
theorem checkHeight_append (x : Phrase kind) (text : List Char) : ∀ {ops}, ops.map Prod.fst = x.ops → ∀ height rest,
    checkHeight text height (ops ++ rest) = checkHeight text (height + 1) rest := by
  induction x with
  | accept set =>
    intro ops h height rest
    obtain ⟨⟨_, place⟩, rfl, rfl⟩ := List.map_eq_singleton_iff.mp h
    rfl
  | group x ih | ofAtom x ih | ofRepetition x ih | ofSequence x ih => exact ih
  | repeated x op isPostfix ih =>
    intro ops h height rest
    obtain ⟨first, last, rfl, hfirst, hlast⟩ := List.map_eq_append_iff.mp h
    obtain ⟨⟨_, place⟩, rfl, rfl⟩ := List.map_eq_singleton_iff.mp hlast
    rw [List.append_assoc, ih hfirst, List.singleton_append, checkHeight, isPostfix.operands_eq,
      if_neg (Nat.not_lt.mpr (Nat.le_add_left 1 height)), Nat.add_sub_cancel]
  | followed x y ihx ihy | barred x y ihx ihy =>
    intro ops h height rest
    obtain ⟨both, last, rfl, hboth, hlast⟩ := List.map_eq_append_iff.mp h
    obtain ⟨first, second, rfl, hfirst, hsecond⟩ := List.map_eq_append_iff.mp hboth
    obtain ⟨⟨_, place⟩, rfl, rfl⟩ := List.map_eq_singleton_iff.mp hlast
    rw [List.append_assoc, List.append_assoc, ihx hfirst, ihy hsecond, List.singleton_append, checkHeight]
    exact if_neg (Nat.not_lt.mpr (Nat.le_add_left 2 height))

/-- **Tokens that spell alternatives have their operations.** -/
theorem operationsOf_eq (x : Phrase .alternatives) (text : List Char) {tokens : List (PatternToken × PatternPlace)}
    (h : bare tokens = x.tokens) : operationsOf text tokens = .ok x.ops := by
  obtain ⟨out, pending, hops, -, post⟩ := x.reorders _ (x.bare_markConcat_eq h) [] (by intro op place top; cases top)
  have ordered : toPostfix (markConcat tokens) [] = .ok (out ++ pending) := by
    rw [← List.append_nil (markConcat tokens), post, List.append_nil, toPostfix, popAll_waiting]
    rfl
  have height : checkHeight text 0 (out ++ pending) = .ok () := by
    rw [← List.append_nil (out ++ pending), x.checkHeight_append text hops]
    rfl
  simp [operationsOf, ordered, height, hops, bind, Except.bind, pure, Except.pure]

end Phrase
end TableParsing
