import Mathlib.Data.List.MinMax
import Mathlib.Logic.Relation
import TableParsing.Grammar.Symbol

/-! # Precedence climbing

What a row of operands with operators between them stands for is found by **splitting the row at its loosest level**: at
the last operator of the level if they group to the left, at the first one if they group to the right, and then both
sides are split in turn (`Operators.climb`).  If operators of the level do not group, there must be only one.

It can also be found from left to right (`Operators.Shunts`).  An operator waits with the operand in front of it until
the operators that come up bind no more tightly, and then what it waits with is combined with what has come up.  **Both
ways lead to the same** (`comes_climb`), if all operators of a level group in the same way. -/

namespace TableParsing

/-! ## Cuts -/

/-- A place to cut a row at. -/
structure Cut {β : Type} (row : List β) where
  front : List β
  middle : β
  back : List β
  eq : row = front ++ middle :: back

namespace Cut
variable {β : Type} {p : β → Bool} {row : List β} {x : β} {cut : Cut row}

/-- The place in a row with one more entry in front. -/
def behind (x : β) (cut : Cut row) : Cut (x :: row) :=
  ⟨x :: cut.front, cut.middle, cut.back, congrArg (x :: ·) cut.eq⟩

/-- The place of the first entry with a property. -/
def first? (p : β → Bool) : (row : List β) → Option (Cut row)
  | [] => none
  | x :: row => if p x then some ⟨[], x, row, rfl⟩ else (first? p row).map (behind x)

/-- The place of the last entry with a property. -/
def last? (p : β → Bool) : (row : List β) → Option (Cut row)
  | [] => none
  | x :: row =>
    match last? p row with
    | some cut => some (cut.behind x)
    | none => if p x then some ⟨[], x, row, rfl⟩ else none

theorem length_eq (cut : Cut row) : row.length = cut.front.length + (cut.back.length + 1) := by
  have length := congrArg List.length cut.eq
  rwa [List.length_append, List.length_cons] at length

theorem mem_iff (cut : Cut row) : x ∈ row ↔ x ∈ cut.front ∨ x = cut.middle ∨ x ∈ cut.back := by
  have mem := congrArg (x ∈ ·) cut.eq
  simpa only [List.mem_append, List.mem_cons, eq_iff_iff] using mem

theorem mem_of_mem_front (cut : Cut row) (h : x ∈ cut.front) : x ∈ row := cut.mem_iff.mpr (.inl h)

theorem middle_mem (cut : Cut row) : cut.middle ∈ row := cut.mem_iff.mpr (.inr (.inl rfl))

theorem mem_of_mem_back (cut : Cut row) (h : x ∈ cut.back) : x ∈ row := cut.mem_iff.mpr (.inr (.inr h))

theorem of_first? (h : first? p row = some cut) : p cut.middle ∧ ∀ x ∈ cut.front, ¬p x := by
  induction row with
  | nil => cases h
  | cons x row ih =>
    rw [first?] at h
    split at h
    · cases h
      exact ⟨‹_›, nofun⟩
    · rename_i absent
      obtain ⟨later, found, rfl⟩ := Option.map_eq_some_iff.mp h
      obtain ⟨here, before⟩ := ih found
      exact ⟨here, List.forall_mem_cons.mpr ⟨absent, before⟩⟩

theorem exists_first? (hx : x ∈ row) (h : p x) : ∃ cut, first? p row = some cut := by
  induction row with
  | nil => cases hx
  | cons y row ih =>
    rw [first?]
    split
    · exact ⟨_, rfl⟩
    · rename_i absent
      obtain ⟨cut, found⟩ := ih ((List.mem_cons.mp hx).resolve_left fun same => absent (same ▸ h))
      exact ⟨_, by rw [found]; rfl⟩

theorem last?_eq_none_iff : last? p row = none ↔ ∀ x ∈ row, ¬p x := by
  induction row with
  | nil => exact iff_of_true rfl nofun
  | cons x row ih =>
    rw [last?, List.forall_mem_cons, ← ih]
    cases last? p row <;> simp

theorem of_last? (h : last? p row = some cut) : p cut.middle ∧ ∀ x ∈ cut.back, ¬p x := by
  induction row with
  | nil => cases h
  | cons x row ih =>
    rw [last?] at h
    split at h
    · rename_i later found
      cases h
      exact ih found
    · rename_i absent
      split at h
      · cases h
        exact ⟨‹_›, last?_eq_none_iff.mp absent⟩
      · cases h

theorem exists_last? (hx : x ∈ row) (h : p x) : ∃ cut, last? p row = some cut :=
  Option.ne_none_iff_exists'.mp fun none => last?_eq_none_iff.mp none x hx h

end Cut

/-! ## Operators side by side -/

namespace Precedence
variable {left right : Precedence} {target production : Nat}

/-- Whether an operator waits for the one behind it. -/
def Awaits (left right : Precedence) : Prop :=
  left.level < right.level ∨ left.level = right.level ∧ right.associativity = .right

/-- Whether an operator takes what stands between it and the one behind it. -/
def Takes (left right : Precedence) : Prop :=
  right.level < left.level ∨ left.level = right.level ∧ right.associativity = .left

/-- Whether two operators may not stand side by side. -/
def Clashes (left right : Precedence) : Prop := left.level = right.level ∧ right.associativity = .nonAssoc

end Precedence

/-- Operators between operands. -/
structure Operators (ω α : Type) where
  precedence : ω → Precedence
  combine : ω → α → α → α

namespace Operators
variable {ω α : Type} (operators : Operators ω α)

/-- Whether an operator is of the loosest level of a row. -/
def isLoosest (row : List (ω × α)) (link : ω × α) : Bool :=
  row.all fun other => (operators.precedence link.1).level ≤ (operators.precedence other.1).level

/-- Where to split a row of operators with the operands behind them. -/
def split? (row : List (ω × α)) : Option (Cut row) :=
  (Cut.first? (operators.isLoosest row) row).bind fun cut =>
    match (operators.precedence cut.middle.1).associativity with
    | .left => Cut.last? (operators.isLoosest row) row
    | .right => some cut
    | .nonAssoc => if cut.back.any (operators.isLoosest row) then none else some cut

/-- **Precedence climbing.**  What an operand comes to with the operators and operands behind it: they are split at
their loosest level, unless there are several operators of the level and these do not group. -/
def climb (first : α) : List (ω × α) → Option α
  | [] => some first
  | link :: row =>
    match operators.split? (link :: row) with
    | none => none
    | some cut => do
      let left ← climb first cut.front
      let right ← climb cut.middle.2 cut.back
      return operators.combine cut.middle.1 left right
termination_by row => row.length
decreasing_by all_goals have := cut.length_eq; omega

theorem climb_nil (first : α) : operators.climb first [] = some first := by rw [climb]

theorem climb_of_split? {first : α} {row : List (ω × α)} {cut : Cut row} (h : operators.split? row = some cut) :
    operators.climb first row = (operators.climb first cut.front).bind fun left =>
      (operators.climb cut.middle.2 cut.back).map (operators.combine cut.middle.1 left) := by
  cases row with
  | nil => cases h
  | cons link row =>
    rw [climb]
    simp only [h, Option.map_eq_bind]
    rfl

theorem climb_of_split?_eq_none {first : α} {row : List (ω × α)} (h : operators.split? row = none) (some : row ≠ []) :
    operators.climb first row = none := by
  cases row with
  | nil => exact absurd rfl some
  | cons link row =>
    rw [climb]
    simp only [h]

/-- Whether operators of one level group in the same way. -/
def Agree (row : List (ω × α)) : Prop :=
  ∀ link ∈ row, ∀ other ∈ row, (operators.precedence link.1).level = (operators.precedence other.1).level →
    (operators.precedence link.1).associativity = (operators.precedence other.1).associativity

section Split
variable {operators} {row part : List (ω × α)} {link other : ω × α} {cut : Cut row}

theorem Agree.of_subset (h : operators.Agree row) (sub : ∀ link ∈ part, link ∈ row) : operators.Agree part :=
  fun link hl other ho => h link (sub link hl) other (sub other ho)

theorem isLoosest_iff : operators.isLoosest row link ↔
    ∀ other ∈ row, (operators.precedence link.1).level ≤ (operators.precedence other.1).level := by
  simp only [isLoosest, List.all_eq_true, decide_eq_true_eq]

variable (operators) in
theorem exists_isLoosest (some : row ≠ []) : ∃ link ∈ row, operators.isLoosest row link := by
  let level (link : ω × α) : Nat := (operators.precedence link.1).level
  cases h : row.argmin level with
  | none => exact absurd (List.argmin_eq_none.mp h) some
  | some link =>
    exact ⟨link, List.argmin_mem h, isLoosest_iff.mpr fun other ho => List.le_of_mem_argmin (f := level) ho h⟩

/-- All that are as loose as the loosest are of its level. -/
theorem level_eq_of_isLoosest (h : operators.isLoosest row link) (h' : operators.isLoosest row other)
    (hl : link ∈ row) (ho : other ∈ row) :
    (operators.precedence link.1).level = (operators.precedence other.1).level :=
  Nat.le_antisymm (isLoosest_iff.mp h other ho) (isLoosest_iff.mp h' link hl)

/-- All others bind more tightly. -/
theorem level_lt_of_not_isLoosest (h : operators.isLoosest row link) (h' : ¬operators.isLoosest row other)
    (ho : other ∈ row) : (operators.precedence link.1).level < (operators.precedence other.1).level := by
  refine Nat.lt_of_le_of_ne (isLoosest_iff.mp h other ho) fun same => h' (isLoosest_iff.mpr fun third ht => ?_)
  exact same ▸ isLoosest_iff.mp h third ht

/-- **Where a row is split**, the operators in front of the cut are done before its operator, and it waits for those
behind. -/
theorem takes_and_awaits (agree : operators.Agree row) (h : operators.split? row = some cut) :
    (∀ link ∈ cut.front, (operators.precedence link.1).Takes (operators.precedence cut.middle.1)) ∧
      ∀ link ∈ cut.back, (operators.precedence cut.middle.1).Awaits (operators.precedence link.1) := by
  obtain ⟨first, found, h⟩ := Option.bind_eq_some_iff.mp h
  obtain ⟨loosest, before⟩ := Cut.of_first? found
  split at h
  · rename_i left
    obtain ⟨loosest', behind⟩ := Cut.of_last? h
    have level := level_eq_of_isLoosest loosest loosest' first.middle_mem cut.middle_mem
    refine ⟨fun link hl => ?_, fun link hl => .inl (level_lt_of_not_isLoosest loosest' (behind link hl)
      (cut.mem_of_mem_back hl))⟩
    rcases Nat.eq_or_lt_of_le (isLoosest_iff.mp loosest' link (cut.mem_of_mem_front hl)) with same | lt
    · exact .inr ⟨same.symm, (agree _ first.middle_mem _ cut.middle_mem level).symm.trans left⟩
    · exact .inl lt
  · rename_i right
    cases h
    refine ⟨fun link hl => .inl (level_lt_of_not_isLoosest loosest (before link hl) (cut.mem_of_mem_front hl)),
      fun link hl => ?_⟩
    have mem := cut.mem_of_mem_back hl
    rcases Nat.eq_or_lt_of_le (isLoosest_iff.mp loosest link mem) with same | lt
    · exact .inr ⟨same, (agree _ cut.middle_mem _ mem same).symm.trans right⟩
    · exact .inl lt
  · split at h
    · cases h
    · rename_i alone
      cases h
      refine ⟨fun link hl => .inl (level_lt_of_not_isLoosest loosest (before link hl) (cut.mem_of_mem_front hl)),
        fun link hl => .inl (level_lt_of_not_isLoosest loosest (fun h => alone (List.any_eq_true.mpr ⟨link, hl, h⟩))
          (cut.mem_of_mem_back hl))⟩

/-- **There is no way to split a row** if there are several operators of its loosest level, and they do not group. -/
theorem split?_eq_none_iff (some : row ≠ []) : operators.split? row = none ↔
    ∃ cut, Cut.first? (operators.isLoosest row) row = Option.some cut ∧
      (operators.precedence cut.middle.1).associativity = .nonAssoc ∧
        ∃ later ∈ cut.back, operators.isLoosest row later := by
  obtain ⟨link, hl, loosest⟩ := operators.exists_isLoosest some
  obtain ⟨cut, found⟩ := Cut.exists_first? hl loosest
  rw [split?, found, Option.bind_some]
  simp only [Option.some.injEq, exists_eq_left', ← List.any_eq_true]
  obtain ⟨loosest, -⟩ := Cut.of_first? found
  obtain ⟨last, found'⟩ := Cut.exists_last? cut.middle_mem loosest
  cases (operators.precedence cut.middle.1).associativity <;> simp [found']

/-- If a row has several such operators, the first two clash, and all between them bind more tightly. -/
theorem exists_clash (agree : operators.Agree row) (some : row ≠ []) (h : operators.split? row = none) :
    ∃ (cut : Cut row) (later : Cut cut.back),
      (operators.precedence cut.middle.1).Clashes (operators.precedence later.middle.1) ∧
      (∀ link ∈ cut.front, (operators.precedence link.1).Takes (operators.precedence cut.middle.1)) ∧
      (∀ link ∈ later.front, (operators.precedence cut.middle.1).Awaits (operators.precedence link.1)) ∧
      ∀ link ∈ later.front, (operators.precedence link.1).Takes (operators.precedence later.middle.1) := by
  obtain ⟨cut, found, nonAssoc, other, ho, loosest'⟩ := (split?_eq_none_iff some).mp h
  obtain ⟨loosest, before⟩ := Cut.of_first? found
  obtain ⟨later, found'⟩ := Cut.exists_first? ho loosest'
  obtain ⟨loosest', between⟩ := Cut.of_first? found'
  have there := cut.mem_of_mem_back later.middle_mem
  have level := level_eq_of_isLoosest loosest loosest' cut.middle_mem there
  have tighter (link) (hl : link ∈ later.front) :
      (operators.precedence cut.middle.1).level < (operators.precedence link.1).level :=
    level_lt_of_not_isLoosest loosest (between link hl) (cut.mem_of_mem_back (later.mem_of_mem_front hl))
  exact ⟨cut, later, ⟨level, (agree _ cut.middle_mem _ there level).symm.trans nonAssoc⟩,
    fun link hl => .inl (level_lt_of_not_isLoosest loosest (before link hl) (cut.mem_of_mem_front hl)),
    fun link hl => .inl (tighter link hl), fun link hl => .inl (level ▸ tighter link hl)⟩

/-- Whether splitting a row meets several operators of the loosest level of a part, and they do not group. -/
inductive Meets (operators : Operators ω α) : List (ω × α) → Prop
  | here {row : List (ω × α)} {cut : Cut row} {later : ω × α}
      (first : Cut.first? (operators.isLoosest row) row = some cut)
      (nonAssoc : (operators.precedence cut.middle.1).associativity = .nonAssoc) (hl : later ∈ cut.back)
      (loosest : operators.isLoosest row later) : Meets operators row
  | front {row : List (ω × α)} {cut : Cut row} (split : operators.split? row = some cut)
      (h : Meets operators cut.front) : Meets operators row
  | back {row : List (ω × α)} {cut : Cut row} (split : operators.split? row = some cut)
      (h : Meets operators cut.back) : Meets operators row

theorem meets_iff_of_split? (h : operators.split? row = some cut) :
    operators.Meets row ↔ operators.Meets cut.front ∨ operators.Meets cut.back := by
  refine ⟨fun meets => ?_, fun meets => meets.elim (.front h) (.back h)⟩
  cases meets with
  | here first nonAssoc hl loosest =>
    have some : row ≠ [] := List.ne_nil_of_mem cut.middle_mem
    cases h.symm.trans ((split?_eq_none_iff some).mpr ⟨_, first, nonAssoc, _, hl, loosest⟩)
  | front split meets =>
    cases h.symm.trans split
    exact .inl meets
  | back split meets =>
    cases h.symm.trans split
    exact .inr meets

/-- **Climbing comes to nothing exactly if operators meet that do not group.** -/
theorem climb_eq_none_iff (first : α) : operators.climb first row = none ↔ operators.Meets row := by
  induction hn : row.length using Nat.strong_induction_on generalizing first row with
  | _ n ih =>
  by_cases empty : row = []
  · subst empty
    rw [climb_nil]
    exact iff_of_false nofun fun meets => by cases meets <;> contradiction
  cases hsplit : operators.split? row with
  | none =>
    obtain ⟨cut, found, nonAssoc, later, hl, loosest⟩ := (split?_eq_none_iff empty).mp hsplit
    exact iff_of_true (operators.climb_of_split?_eq_none hsplit empty) (.here found nonAssoc hl loosest)
  | some cut =>
    have length := cut.length_eq
    have front := ih cut.front.length (by omega) first rfl
    have back := ih cut.back.length (by omega) cut.middle.2 rfl
    rw [operators.climb_of_split? hsplit, meets_iff_of_split? hsplit, ← front, ← back]
    cases operators.climb first cut.front <;> simp

end Split

/-! ## From left to right -/

/-- How far a row has been read. -/
structure Shunt (ω α : Type) where
  /-- The operators that wait, the latest first, with the operands in front of them. -/
  waiting : List (α × ω)
  operand : α
  rest : List (ω × α)

/-- What is done next. -/
inductive Shunts (operators : Operators ω α) : Shunt ω α → Shunt ω α → Prop
  /-- An operator waits for the operand behind it. -/
  | wait {waiting : List (α × ω)} {operand : α} {link : ω × α} {rest : List (ω × α)}
      (awaits : ∀ last ∈ waiting.head?, (operators.precedence last.2).Awaits (operators.precedence link.1)) :
      Shunts operators ⟨waiting, operand, link :: rest⟩ ⟨(operand, link.1) :: waiting, link.2, rest⟩
  /-- The last operator that waits is done. -/
  | combine {last : α × ω} {waiting : List (α × ω)} {operand : α} {rest : List (ω × α)}
      (takes : ∀ link ∈ rest.head?, (operators.precedence last.2).Takes (operators.precedence link.1)) :
      Shunts operators ⟨last :: waiting, operand, rest⟩ ⟨waiting, operators.combine last.2 last.1 operand, rest⟩

/-- Whether the next operator clashes with the last one that waits. -/
inductive Clash (operators : Operators ω α) : Shunt ω α → Prop
  | intro {last : α × ω} {waiting : List (α × ω)} {operand : α} {link : ω × α} {rest : List (ω × α)}
      (clashes : (operators.precedence last.2).Clashes (operators.precedence link.1)) :
      Clash operators ⟨last :: waiting, operand, link :: rest⟩

/-- What reading a row comes to: a place, or a clash. -/
def Comes (operators : Operators ω α) (start : Shunt ω α) : Option (Shunt ω α) → Prop
  | some last => Relation.ReflTransGen operators.Shunts start last
  | none => ∃ last, Relation.ReflTransGen operators.Shunts start last ∧ operators.Clash last

variable {operators} {start next : Shunt ω α} {outcome : Option (Shunt ω α)}

theorem Comes.after (h : operators.Comes next outcome) (steps : Relation.ReflTransGen operators.Shunts start next) :
    operators.Comes start outcome := by
  cases outcome with
  | some last => exact steps.trans h
  | none =>
    obtain ⟨last, h, clash⟩ := h
    exact ⟨last, steps.trans h, clash⟩

theorem Comes.bind {v? : Option α} {place : α → Shunt ω α} {outcome : α → Option (Shunt ω α)}
    (h : operators.Comes start (v?.map place)) (h' : ∀ v, operators.Comes (place v) (outcome v)) :
    operators.Comes start (v?.bind outcome) := by
  cases v? with
  | none => exact h
  | some v => exact (h' v).after h

/-- Behind what is read up to an operator, the operator waits. -/
theorem Comes.wait {waiting : List (α × ω)} {link : ω × α} {rest : List (ω × α)} {v? : Option α}
    {outcome : α → Option (Shunt ω α)} (h : operators.Comes start (v?.map fun v => ⟨waiting, v, link :: rest⟩))
    (awaits : ∀ last ∈ waiting.head?, (operators.precedence last.2).Awaits (operators.precedence link.1))
    (h' : ∀ v, operators.Comes ⟨(v, link.1) :: waiting, link.2, rest⟩ (outcome v)) :
    operators.Comes start (v?.bind outcome) :=
  h.bind fun v => (h' v).after (.single (.wait awaits))

/-- **Reading a part of a row comes to what climbing makes of it**, if what waits in front of the part waits for all
its operators, and they are all done before the operator behind the part. -/
theorem comes_climb {waiting : List (α × ω)} {first : α} {row rest : List (ω × α)} (agree : operators.Agree row)
    (awaits : ∀ link ∈ row, ∀ last ∈ waiting.head?,
      (operators.precedence last.2).Awaits (operators.precedence link.1))
    (takes : ∀ next ∈ rest.head?, ∀ link ∈ row,
      (operators.precedence link.1).Takes (operators.precedence next.1)) :
    operators.Comes ⟨waiting, first, row ++ rest⟩ ((operators.climb first row).map fun v => ⟨waiting, v, rest⟩) := by
  induction hn : row.length using Nat.strong_induction_on generalizing waiting first row rest with
  | _ n ih =>
  by_cases empty : row = []
  · subst empty
    rw [climb_nil]
    exact .refl
  -- up to an operator that all in front of it are done before
  have upTo (cut : Cut row) (before : ∀ link ∈ cut.front,
      (operators.precedence link.1).Takes (operators.precedence cut.middle.1)) :
      operators.Comes ⟨waiting, first, row ++ rest⟩
        ((operators.climb first cut.front).map fun v => ⟨waiting, v, cut.middle :: (cut.back ++ rest)⟩) := by
    have length := cut.length_eq
    have whole : row ++ rest = cut.front ++ cut.middle :: (cut.back ++ rest) := by
      rw [← List.cons_append, ← List.append_assoc, ← cut.eq]
    rw [whole]
    exact ih _ (by omega) (agree.of_subset fun _ => cut.mem_of_mem_front)
      (fun link hl => awaits link (cut.mem_of_mem_front hl)) (fun next hn => Option.mem_some.mp hn ▸ before) rfl
  cases hsplit : operators.split? row with
  | some cut =>
    obtain ⟨before, behind⟩ := takes_and_awaits agree hsplit
    have length := cut.length_eq
    rw [operators.climb_of_split? hsplit, Option.map_bind]
    refine (upTo cut before).wait (awaits _ cut.middle_mem) fun left => ?_
    have back : operators.Comes ⟨(left, cut.middle.1) :: waiting, cut.middle.2, cut.back ++ rest⟩ _ :=
      ih cut.back.length (by omega) (agree.of_subset fun _ => cut.mem_of_mem_back)
        (fun link hl last h => Option.mem_some.mp h ▸ behind link hl)
      (fun next hn link hl => takes next hn link (cut.mem_of_mem_back hl)) rfl
    rw [Function.comp_apply, Option.map_map, Option.map_eq_bind]
    exact back.bind fun right => .single (.combine fun next hn => takes next hn _ cut.middle_mem)
  | none =>
    obtain ⟨cut, later, clashes, before, between, behind⟩ := exists_clash agree empty hsplit
    have length := cut.length_eq
    have length' := later.length_eq
    have whole : cut.back ++ rest = later.front ++ later.middle :: (later.back ++ rest) := by
      rw [← List.cons_append, ← List.append_assoc, ← later.eq]
    rw [operators.climb_of_split?_eq_none hsplit empty, Option.map_none,
      ← Option.bind_fun_none (operators.climb first cut.front)]
    refine (upTo cut before).wait (awaits _ cut.middle_mem) fun left => ?_
    -- nothing is left between the operators that clash
    have middle : operators.Comes ⟨(left, cut.middle.1) :: waiting, cut.middle.2,
        later.front ++ later.middle :: (later.back ++ rest)⟩ _ :=
      ih later.front.length (by omega) (agree.of_subset fun _ h => cut.mem_of_mem_back (later.mem_of_mem_front h))
      (fun link hl last h => Option.mem_some.mp h ▸ between link hl) (fun next hn => Option.mem_some.mp hn ▸ behind) rfl
    rw [whole, ← Option.bind_fun_none (operators.climb cut.middle.2 later.front)]
    exact middle.bind fun right => ⟨_, .refl, .intro clashes⟩

/-- **Reading a row comes to what climbing makes of it.** -/
theorem comes_climb_row (first : α) {row : List (ω × α)} (agree : operators.Agree row) :
    operators.Comes ⟨[], first, row⟩ ((operators.climb first row).map fun v => ⟨[], v, []⟩) := by
  have comes : operators.Comes ⟨[], first, row ++ []⟩ _ :=
    comes_climb agree (fun _ _ _ h => nomatch h) (fun _ h => nomatch h)
  rwa [List.append_nil] at comes

end Operators
end TableParsing
