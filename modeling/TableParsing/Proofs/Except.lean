import TableParsing.Event

/-! # Checks that go through

A chain of checks in `Except` has a result when every check of the chain has one, whatever is reported on
the way. -/

namespace TableParsing
namespace Except

variable {ε α β : Type}

theorem bind_eq_ok_iff {x : Except ε α} {f : α → Except ε β} {b : β} :
    (x >>= f) = .ok b ↔ ∃ a, x = .ok a ∧ f a = .ok b := by
  cases x with
  | error e =>
    refine iff_of_false (fun h => ?_) fun ⟨_, h, _⟩ => ?_ <;> cases h
  | ok a =>
    constructor
    · intro h
      exact ⟨a, rfl, h⟩
    · rintro ⟨a', ha, h⟩
      cases ha
      exact h

theorem bind_eq_error_iff {x : Except ε α} {f : α → Except ε β} {e : ε} :
    (x >>= f) = .error e ↔ x = .error e ∨ ∃ a, x = .ok a ∧ f a = .error e := by
  cases x with
  | error e' =>
    constructor
    · intro h
      cases h
      exact .inl rfl
    · rintro (h | ⟨a, h, -⟩)
      · cases h
        rfl
      · cases h
  | ok a =>
    constructor
    · intro h
      exact .inr ⟨a, rfl, h⟩
    · rintro (h | ⟨a', ha, h⟩)
      · cases h
      · cases ha
        exact h

theorem map_eq_ok_iff {x : Except ε α} {f : α → β} {b : β} : x.map f = .ok b ↔ ∃ a, x = .ok a ∧ f a = b := by
  cases x with
  | error e =>
    refine iff_of_false (fun h => ?_) fun ⟨_, h, _⟩ => ?_ <;> cases h
  | ok a =>
    constructor
    · intro h
      exact ⟨a, rfl, Except.ok.inj h⟩
    · rintro ⟨a', ha, rfl⟩
      cases ha
      rfl

theorem forM_eq_ok_iff {xs : List α} {f : α → Except ε Unit} :
    xs.forM f = .ok () ↔ ∀ x ∈ xs, f x = .ok () := by
  induction xs with
  | nil => exact iff_of_true rfl fun _ h => absurd h List.not_mem_nil
  | cons x xs ih =>
    change (f x >>= fun _ => xs.forM f) = .ok () ↔ _
    rw [bind_eq_ok_iff, List.forall_mem_cons, ← ih]
    exact ⟨fun ⟨_, h, h'⟩ => ⟨h, h'⟩, fun ⟨h, h'⟩ => ⟨(), h, h'⟩⟩

/-- A function that has a result for every element has one for the list. -/
theorem exists_mapM_eq_ok {f : α → Except ε β} {xs : List α} (h : ∀ x ∈ xs, ∃ y, f x = .ok y) :
    ∃ ys, xs.mapM f = .ok ys := by
  induction xs with
  | nil => exact ⟨[], rfl⟩
  | cons x xs ih =>
    obtain ⟨first, others⟩ := List.forall_mem_cons.mp h
    obtain ⟨y, hy⟩ := first
    obtain ⟨ys, hys⟩ := ih others
    refine ⟨y :: ys, ?_⟩
    rw [List.mapM_cons]
    exact bind_eq_ok_iff.mpr ⟨y, hy, bind_eq_ok_iff.mpr ⟨ys, hys, rfl⟩⟩

/-- What a function makes of the elements of a list one by one. -/
theorem getElem?_of_mapM_eq_ok {f : α → Except ε β} {xs : List α} {ys : List β}
    (h : xs.mapM f = .ok ys) {i : Nat} {x : α} (hx : xs[i]? = some x) :
    ∃ y, ys[i]? = some y ∧ f x = .ok y := by
  induction xs generalizing ys i with
  | nil => cases hx
  | cons a xs ih =>
    rw [List.mapM_cons] at h
    obtain ⟨b, hb, h⟩ := bind_eq_ok_iff.mp h
    obtain ⟨bs, hbs, h⟩ := bind_eq_ok_iff.mp h
    cases h
    cases i with
    | zero =>
      cases hx
      exact ⟨b, rfl, hb⟩
    | succ i => exact ih hbs hx

/-- **A function that fails on a list fails first on one of its elements.** -/
theorem exists_of_mapM_eq_error {f : α → Except ε β} {xs : List α} {e : ε} (h : xs.mapM f = .error e) :
    ∃ (i : Nat) (x : α), xs[i]? = some x ∧ f x = .error e ∧
      ∀ j < i, ∀ x, xs[j]? = some x → ∃ y, f x = .ok y := by
  induction xs with
  | nil => cases h
  | cons a xs ih =>
    rw [List.mapM_cons] at h
    rcases bind_eq_error_iff.mp h with fails | ⟨b, hb, h⟩
    · exact ⟨0, a, rfl, fails, fun j before => absurd before (Nat.not_lt_zero j)⟩
    · rcases bind_eq_error_iff.mp h with h | ⟨bs, -, h⟩
      · obtain ⟨i, x, hx, fails, first⟩ := ih h
        refine ⟨i + 1, x, hx, fails, fun j before x hx => ?_⟩
        cases j with
        | zero =>
          cases hx
          exact ⟨b, hb⟩
        | succ j => exact first j (Nat.lt_of_succ_lt_succ before) x hx
      · cases h

theorem length_of_mapM_eq_ok {f : α → Except ε β} {xs : List α} {ys : List β}
    (h : xs.mapM f = .ok ys) : ys.length = xs.length := by
  induction xs generalizing ys with
  | nil =>
    cases h
    rfl
  | cons a xs ih =>
    rw [List.mapM_cons] at h
    obtain ⟨b, -, h⟩ := bind_eq_ok_iff.mp h
    obtain ⟨bs, hbs, h⟩ := bind_eq_ok_iff.mp h
    cases h
    rw [List.length_cons, List.length_cons, ih hbs]

end Except

theorem Logged.bind_eq_ok_iff {ε α β : Type} {x : ExceptT ε Logged α} {f : α → ExceptT ε Logged β} {b : β} :
    (x >>= f).run.value = .ok b ↔ ∃ a, x.run.value = .ok a ∧ (f a).run.value = .ok b := by
  have run : (x >>= f).run.value =
      match x.run.value with
      | .ok a => (f a).run.value
      | .error e => .error e := by
    change (ExceptT.bindCont f x.run.value).value = _
    cases x.run.value <;> rfl
  rw [run]
  cases x.run.value with
  | error e =>
    refine iff_of_false (fun h => ?_) fun ⟨_, h, _⟩ => ?_ <;> cases h
  | ok a => exact ⟨fun h => ⟨a, rfl, h⟩, fun ⟨a', ha, h⟩ => by cases ha; exact h⟩

end TableParsing
