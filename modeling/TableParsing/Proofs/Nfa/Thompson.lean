import TableParsing.Proofs.Except
import TableParsing.Proofs.Nfa.Repetition

/-! # The languages of automata

The automaton of a list of operations has the languages of their passage (`Nfa.rel_ofOperations?`): the
fragments on the stack follow the passages step by step, and the finished automaton keeps the languages.

So operations at the core mean what they should (`Nfa.accepts_iff_of_core`).  The others make use of a way
from the start of a fragment to its end, **which is also open to a match that has come back to the start**.
They mean what they should just when coming back adds no words (`Nfa.skips_exact_iff`). -/

namespace TableParsing

open Computability PatternAlgebra

theorem rel_bind {α α' β β' : Type} {r : α → α' → Prop} {r' : β → β' → Prop} {a : Option α}
    {a' : Option α'} {f : α → Option β} {f' : α' → Option β'} (h : Option.Rel r a a')
    (next : ∀ x x', r x x' → Option.Rel r' (f x) (f' x')) : Option.Rel r' (a.bind f) (a'.bind f') := by
  cases h with
  | none => exact .none
  | some hx => exact next _ _ hx

namespace Graph
variable {graph : Graph} {stack : List Fragment} {ps : List Passage}

/-- **A step**: what an operation makes of the top of the stack. -/
theorem rel_perform? (h : graph.Laid ∅ stack ps) (op : PatternOp) :
    Option.Rel (fun result qs => result.1.Laid ∅ result.2 qs) (graph.perform? stack op)
      (passages.perform? ps op) := by
  cases op with
  | accept set => exact .some (h.push (makes_accept set) (Set.Subset.refl _))
  | concat =>
    rcases h with _ | ⟨hb, _, _ | ⟨ha, apart, rest⟩⟩
    · exact .none
    · exact .none
    · exact .some (rest.push (makes_concat ha hb (apart.mono_left Set.subset_union_right).symm)
        (Set.union_subset Set.subset_union_right
          (Set.subset_union_right.trans Set.subset_union_left)))
  | alternate =>
    rcases h with _ | ⟨hb, _, _ | ⟨ha, apart, rest⟩⟩
    · exact .none
    · exact .none
    · exact .some (rest.push (makes_alternate ha hb (apart.mono_left Set.subset_union_right).symm)
        (Set.union_subset Set.subset_union_right
          (Set.subset_union_right.trans Set.subset_union_left)))
  | star =>
    rcases h with _ | ⟨hx, _, rest⟩
    · exact .none
    · exact .some (rest.push (makes_star hx) Set.subset_union_right)
  | plus =>
    rcases h with _ | ⟨hx, _, rest⟩
    · exact .none
    · exact .some (rest.push (makes_plus hx) Set.subset_union_right)
  | optional =>
    rcases h with _ | ⟨hx, _, rest⟩
    · exact .none
    · exact .some (rest.push (makes_optional hx) Set.subset_union_right)
  | «repeat» min max =>
    rcases h with _ | ⟨hx, _, rest⟩
    · exact .none
    · exact .some (rest.push (makes_repeat hx min max) Set.subset_union_right)

theorem exists_laid_of_perform? (h : graph.Laid ∅ stack ps) {op : PatternOp} {result : Graph × List Fragment}
    (performed : graph.perform? stack op = some result) : ∃ qs, result.1.Laid ∅ result.2 qs := by
  have step := rel_perform? h op
  rw [performed] at step
  generalize passages.perform? ps op = made at step
  cases step with
  | some laid => exact ⟨_, laid⟩

/-- **A run** of operations makes of passages what it makes of fragments. -/
theorem rel_foldlM (h : graph.Laid ∅ stack ps) (ops : List PatternOp) :
    Option.Rel (fun result qs => result.1.Laid ∅ result.2 qs)
      (ops.foldlM (fun (graph, stack) op => graph.perform? stack op) (graph, stack))
      (ops.foldlM passages.perform? ps) := by
  induction ops generalizing graph stack ps with
  | nil => exact .some h
  | cons op ops ih =>
    rw [List.foldlM_cons, List.foldlM_cons]
    exact rel_bind (rel_perform? h op) fun _ _ laid => ih laid

end Graph

namespace Nfa
variable {ops : List PatternOp} {nfa : Nfa}

/-- **An automaton has the languages of the passage** that its operations stand for. -/
theorem rel_ofOperations? (ops : List PatternOp) :
    Option.Rel (fun nfa p => nfa.language = p.through ∧ nfa.returns = p.back) (ofOperations? ops)
      (passages.eval? ops) := by
  refine rel_bind (Graph.rel_foldlM .nil ops) fun result ps laid => ?_
  obtain ⟨graph, stack⟩ := result
  rcases laid with _ | ⟨hx, _, _ | _⟩
  · exact .none
  · exact .some ⟨Graph.language_finish hx, Graph.returns_finish hx⟩
  · exact .none

theorem exists_passage (h : ofOperations? ops = some nfa) :
    ∃ p, passages.eval? ops = some p ∧ nfa.language = p.through ∧ nfa.returns = p.back := by
  have rel := rel_ofOperations? ops
  rw [h] at rel
  generalize passages.eval? ops = result at rel
  cases rel with
  | some languages => exact ⟨_, rfl, languages⟩

theorem exists_of_passage {p : Passage} (h : passages.eval? ops = some p) :
    ∃ nfa, ofOperations? ops = some nfa ∧ nfa.language = p.through ∧ nfa.returns = p.back := by
  have rel := rel_ofOperations? ops
  rw [h] at rel
  generalize ofOperations? ops = result at rel
  cases rel with
  | some languages => exact ⟨_, rfl, languages⟩

/-- A pattern whose operations stand for a passage has an automaton with its language. -/
theorem exists_ofPattern {pattern : String} {p : Passage} (hops : PatternOp.ofPattern pattern = .ok ops)
    (hp : passages.eval? ops = some p) : ∃ nfa, ofPattern pattern = .ok nfa ∧ nfa.language = p.through := by
  obtain ⟨nfa, h, through, -⟩ := exists_of_passage hp
  refine ⟨nfa, ?_, through⟩
  refine Except.bind_eq_ok_iff.mpr ⟨ops, hops, ?_⟩
  rw [h]
  rfl

/-- Repeating a set of characters gives the texts that are made of them. -/
theorem mem_words_kstar {set : CharSet} {word : List Char} :
    word ∈ set.words∗ ↔ ∀ c ∈ word, set.contains c = true := by
  rw [Language.mem_kstar]
  constructor
  · rintro ⟨pieces, rfl, made⟩ c hc
    obtain ⟨piece, hpiece, hc⟩ := List.mem_flatten.mp hc
    obtain ⟨d, contains, rfl⟩ := made piece hpiece
    exact List.mem_singleton.mp hc ▸ contains
  · intro made
    refine ⟨word.map fun c => [c], ?_, ?_⟩
    · induction word with
      | nil => rfl
      | cons c word ih => rw [List.map_cons, List.flatten_cons, ← ih fun d hd => made d (.tail c hd)]; rfl
    · intro piece hpiece
      obtain ⟨c, hc, rfl⟩ := List.mem_map.mp hpiece
      exact ⟨c, made c hc, rfl⟩

/-- A pattern that repeats a set accepts the texts that are made of its characters, but for the empty one. -/
theorem exists_ofPattern_plus {pattern : String} {set : CharSet}
    (hops : PatternOp.ofPattern pattern = .ok [.accept set, .plus]) : ∃ nfa, ofPattern pattern = .ok nfa ∧
      ∀ word, nfa.accepts? word = true ↔ word ≠ [] ∧ word.all set.contains = true := by
  obtain ⟨nfa, built, language⟩ := exists_ofPattern hops rfl
  refine ⟨nfa, built, fun word => ?_⟩
  change word ∈ nfa.language ↔ _
  rw [language, List.all_eq_true]
  constructor
  · rintro ⟨_, ⟨c, contains, rfl⟩, rest, made, rfl⟩
    exact ⟨List.cons_ne_nil _ _, List.forall_mem_cons.mpr ⟨contains, mem_words_kstar.mp made⟩⟩
  · rintro ⟨some, made⟩
    obtain ⟨c, rest, rfl⟩ := List.exists_cons_of_ne_nil some
    obtain ⟨contains, made⟩ := List.forall_mem_cons.mp made
    exact ⟨[c], ⟨c, contains, rfl⟩, rest, mem_words_kstar.mpr made, rfl⟩

/-- **At the core the construction is exact**: the automaton accepts the words of the language that the
operations stand for. -/
theorem accepts_iff_of_core (core : ∀ op ∈ ops, op.IsCore) (h : ofOperations? ops = some nfa) :
    ∃ L, languages.eval? ops = some L ∧ ∀ word, nfa.accepts? word = true ↔ word ∈ L := by
  obtain ⟨p, hp, through, _⟩ := exists_passage h
  refine ⟨p.through, ?_, ?_⟩
  · exact languages.eval?_eq_some_iff.mpr (map_through_foldlM core (passages.eval?_eq_some_iff.mp hp))
  · intro word
    rw [← through]
    rfl

/-- One character, at least once. -/
theorem accepts_iff_of_core_plus : ∃ nfa, ofOperations? [.accept (.single 'a'), .plus] = some nfa ∧
    nfa.accepts? ['a', 'a'] = true ∧ nfa.accepts? [] = false := by
  have core : ∀ op ∈ [PatternOp.accept (.single 'a'), .plus], op.IsCore := by simp [PatternOp.IsCore]
  refine ⟨_, rfl, ?_⟩
  obtain ⟨L, hL, accepts⟩ := accepts_iff_of_core core rfl
  have words : (CharSet.single 'a').words * (CharSet.single 'a').words∗ = L := Option.some.inj hL
  have one : ['a'] ∈ (CharSet.single 'a').words := ⟨'a', by decide, rfl⟩
  subst words
  have more : (CharSet.single 'a').words ≤ (CharSet.single 'a').words∗ := le_kstar
  refine ⟨(accepts _).mpr ⟨['a'], one, ['a'], more one, rfl⟩, ?_⟩
  rw [← Bool.not_eq_true, accepts]
  rintro ⟨_, ⟨c, _, rfl⟩, rest, _, nil⟩
  cases nil

/-! ## Ways past a fragment -/

theorem nil_mem_returns (nfa : Nfa) : [] ∈ nfa.returns :=
  mem_ascending.mpr (mem_discover_of_mem (List.mem_singleton.mpr rfl))

/-- An operation on one operand, after others. -/
theorem eval?_append {p q : Passage} (op : PatternOp) (h : passages.eval? ops = some p)
    (hop : passages.perform? [p] op = some [q]) : passages.eval? (ops ++ [op]) = some q := by
  rw [eval?_eq_some_iff] at h ⊢
  rw [List.foldlM_append, h]
  change (passages.perform? [p] op).bind some = some [q]
  rw [hop]
  rfl

/-- **Bounds are exact just when coming back adds nothing.**  A way past a fragment, and one out of a bounded
repetition, is also taken by the words that lead back to the start of the fragment. -/
theorem skips_exact_iff (h : ofOperations? ops = some nfa) :
    (∃ nfa', ofOperations? (ops ++ [.optional]) = some nfa' ∧
      nfa'.language = nfa.language + nfa.returns ∧
      (nfa'.language = nfa.language + 1 ↔ nfa.returns ≤ nfa.language + 1)) ∧
    ∀ min max, min ≤ max → 1 ≤ max → ∃ nfa', ofOperations? (ops ++ [.repeat min (some max)]) = some nfa' ∧
      (∀ word, word ∈ nfa'.language ↔ word ∈ nfa.language ^ max ∨
        ∃ i, min ≤ i ∧ i < max ∧ word ∈ nfa.language ^ i * nfa.returns) ∧
      ((∀ word, word ∈ nfa'.language ↔ ∃ k, min ≤ k ∧ k ≤ max ∧ word ∈ nfa.language ^ k) ↔
        ∀ i, min ≤ i → i < max → ∀ word ∈ nfa.language ^ i * nfa.returns,
          ∃ k, min ≤ k ∧ k ≤ max ∧ word ∈ nfa.language ^ k) := by
  obtain ⟨p, hp, through, back⟩ := exists_passage h
  refine ⟨?_, ?_⟩
  · obtain ⟨nfa', h', through', _⟩ := exists_of_passage (eval?_append .optional hp rfl)
    have words : nfa'.language = nfa.language + nfa.returns := by rw [through', through, back]; rfl
    refine ⟨nfa', h', words, ?_⟩
    -- the empty text leads back to the start, so nothing of the right-hand side is lost
    have nil : 1 ≤ nfa.returns := by
      rintro _ rfl
      exact nil_mem_returns nfa
    rw [words]
    constructor
    · intro exact'
      exact exact' ▸ le_add_left le_rfl
    · intro le
      exact le_antisymm (add_le (le_add_right le_rfl) le) (add_le_add_right nil _)
  · intro min max hmin hmax
    obtain ⟨nfa', h', through', _⟩ := exists_of_passage (eval?_append (.repeat min (some max)) hp rfl)
    have words : ∀ word, word ∈ nfa'.language ↔ word ∈ nfa.language ^ max ∨
        ∃ i, min ≤ i ∧ i < max ∧ word ∈ nfa.language ^ i * nfa.returns := by
      intro word
      rw [through', through, back]
      change _ ∨ _ ↔ _
      rw [Passage.chainLength_of_le hmin hmax]
    refine ⟨nfa', h', words, ?_⟩
    constructor
    · intro exact' i hi hlt word hword
      exact (exact' word).mp ((words word).mpr (.inr ⟨i, hi, hlt, hword⟩))
    · intro back word
      rw [words]
      constructor
      · rintro (hword | ⟨i, hi, hlt, hword⟩)
        · exact ⟨max, hmin, Nat.le_refl _, hword⟩
        · exact back i hi hlt word hword
      · rintro ⟨k, hk, hle, hword⟩
        -- a smaller count ends at a mark, without coming back to it
        by_cases last : k = max
        · exact .inl (last ▸ hword)
        · exact .inr ⟨k, hk, by omega, word, hword, [], nil_mem_returns nfa, List.append_nil _⟩

/-- From two to four times the same character: nothing leads back to the start of a single character. -/
theorem skips_exact_iff_counted : ∃ nfa nfa', ofOperations? [.accept (.single 'a')] = some nfa ∧
    ofOperations? [.accept (.single 'a'), .repeat 2 (some 4)] = some nfa' ∧
    ∀ word, word ∈ nfa'.language ↔ ∃ k, 2 ≤ k ∧ k ≤ 4 ∧ word ∈ nfa.language ^ k := by
  obtain ⟨nfa, h, _, back⟩ := exists_of_passage
    (show passages.eval? [.accept (.single 'a')] = some _ from rfl)
  have once : nfa.returns = 1 := back
  obtain ⟨nfa', h', _, counted⟩ := (skips_exact_iff h).2 2 4 (by decide) (by decide)
  refine ⟨nfa, nfa', h, h', counted.mpr fun i hi hlt word hword => ?_⟩
  rw [once, mul_one] at hword
  exact ⟨i, hi, Nat.le_of_lt hlt, hword⟩

/-- The operations of `a+b`, which begins with a loop. -/
def loopFirst : List PatternOp := [.accept (.single 'a'), .plus, .accept (.single 'b'), .concat]

/-- **A match that has come back to the start takes the way past the fragment**: `(a+b)?` accepts `a`. -/
theorem optional_not_exact : ∃ nfa nfa', ofOperations? loopFirst = some nfa ∧
    ofOperations? (loopFirst ++ [.optional]) = some nfa' ∧
    nfa'.accepts? ['a'] = true ∧ ['a'] ∉ nfa.language + 1 := by
  obtain ⟨nfa, h, through, _⟩ := exists_of_passage (show passages.eval? loopFirst = some _ from rfl)
  obtain ⟨nfa', h', through', _⟩ := exists_of_passage
    (show passages.eval? (loopFirst ++ [.optional]) = some _ from rfl)
  refine ⟨nfa, nfa', h, h', ?_, ?_⟩
  · change ['a'] ∈ nfa'.language
    rw [through']
    have one : ['a'] ∈ (CharSet.single 'a').words := ⟨'a', by decide, rfl⟩
    have more : (CharSet.single 'a').words ≤ (CharSet.single 'a').words∗ := le_kstar
    exact .inr ⟨['a'], more one, [], rfl, rfl⟩
  · rw [through]
    rintro (⟨front, _, _, ⟨c, hc, rfl⟩, same⟩ | nil)
    · have last : [c] = ['a'] := (List.append_inj' (show front ++ [c] = [] ++ ['a'] from same) rfl).2
      cases last
      exact absurd hc (by decide)
    · cases nil

end Nfa
end TableParsing
