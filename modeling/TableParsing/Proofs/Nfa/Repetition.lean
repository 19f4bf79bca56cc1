import TableParsing.Proofs.Nfa.Renumbering

/-! # Counted repetition

A counted repetition is a chain of copies.  While the chain grows, the starts of the copies stay in it as
**marks**: the mark of the copy number `i` is reached behind `i` passes, and reached again behind every word
that leads back to the start of the copy.  From a mark the chain may be left for its end, which is how a
repetition is bounded from below by less than the length of the chain.

The copies stand beside each other before they are joined (`Graph.Laid`), as the fragments on a stack do. -/

namespace TableParsing
namespace Graph

/-- Fragments with their passages, in areas that overlap neither each other nor `taken`. -/
inductive Laid (graph : Graph) : Set Nat → List Fragment → List Passage → Prop where
  | nil {taken : Set Nat} : Laid graph taken [] []
  | cons {taken area : Set Nat} {x : Fragment} {p : Passage} {stack : List Fragment} {ps : List Passage}
      (holds : graph.Holds x area p) (apart : Disjoint taken area) (rest : Laid graph (taken ∪ area) stack ps) :
      Laid graph taken (x :: stack) (p :: ps)

variable {graph after : Graph} {taken taken' area : Set Nat} {x : Fragment} {p : Passage}

namespace Laid
variable {stack : List Fragment} {ps : List Passage}

theorem length_eq (h : graph.Laid taken stack ps) : stack.length = ps.length := by
  induction h with
  | nil => rfl
  | cons _ _ _ ih => rw [List.length_cons, List.length_cons, ih]

/-- Each of the fragments has an area beside what is taken. -/
theorem exists_holds (h : graph.Laid taken stack ps) (hx : x ∈ stack) :
    ∃ area p, graph.Holds x area p ∧ Disjoint taken area := by
  induction h with
  | nil => cases hx
  | cons holds apart _ ih =>
    rcases List.mem_cons.mp hx with rfl | hx
    · exact ⟨_, _, holds, apart⟩
    · obtain ⟨area, p, holds, apart⟩ := ih hx
      exact ⟨area, p, holds, (Set.disjoint_union_left.mp apart).1⟩

/-- **Frame**: fragments beside the area of a change stay as they are, also beside the new states. -/
theorem frame (h : graph.Laid taken stack ps) (keeps : graph.Keeps after taken)
    (sub : taken' ⊆ taken ∪ graph.unused) : after.Laid taken' stack ps := by
  induction h generalizing taken' with
  | nil => exact .nil
  | cons holds apart rest ih =>
    refine .cons (holds.frame keeps apart) ?_ (ih (keeps.mono Set.subset_union_left) ?_)
    · rw [Set.disjoint_left] at apart ⊢
      intro s hs hmem
      rcases sub hs with hs | hs
      · exact apart hs hmem
      · exact Nat.not_lt.mpr hs (holds.within s hmem)
    · rintro s (hs | hs)
      · exact (sub hs).imp .inl id
      · exact .inl (.inr hs)

theorem mono (h : graph.Laid taken stack ps) (sub : taken' ⊆ taken ∪ graph.unused) :
    graph.Laid taken' stack ps := h.frame .refl sub

/-- What is made of fragments in `taken` goes on top of the others. -/
theorem push {result : Graph × Fragment} (h : graph.Laid taken stack ps) (made : graph.Makes area result p)
    (sub : area ⊆ taken) : result.1.Laid ∅ (result.2 :: stack) (p :: ps) := by
  obtain ⟨keeps, area', sub', holds⟩ := made
  refine .cons holds (Set.empty_disjoint _) (h.frame (keeps.mono sub) ?_)
  rw [Set.empty_union]
  exact sub'.trans (Set.union_subset_union_left _ sub)

end Laid

/-! ## Copies -/

theorem laid_copies (h : graph.Holds x area p) (n : Nat) :
    graph.Keeps (graph.copies x n).1 ∅ ∧
      (graph.copies x n).1.Laid {s | s < graph.stateCount} (graph.copies x n).2 (List.replicate n p) := by
  induction n generalizing graph with
  | zero => exact ⟨.refl, .nil⟩
  | succ n ih =>
    obtain ⟨keeps, first, sub, holds⟩ := makes_copy h
    obtain ⟨keeps', laid⟩ := ih (h.frame keeps (Set.empty_disjoint _))
    rw [Set.empty_union] at sub
    refine ⟨keeps.trans keeps' (Set.empty_subset _), ?_⟩
    refine .cons (holds.frame keeps' (Set.empty_disjoint _)) ?_ (laid.mono ?_)
    · exact disjoint_of_unused (fun s hs => hs) sub
    · rintro s (hs | hs)
      · exact .inl (Nat.lt_of_lt_of_le hs keeps.le)
      · exact .inl (holds.within s hs)

/-! ## Chains -/

/-- A chain of copies, with the starts of all of them. -/
structure Chained (graph : Graph) (x : Fragment) (area : Set Nat) (p : Passage) (marks : List Nat) :
    Prop where
  holds : graph.Holds x area ⟨p.through ^ marks.length, p.back⟩
  mark : ∀ i m : Nat, marks[i]? = some m → m ∈ area ∧ m ≠ x.accept ∧
    between graph.outgoing x.start m = p.through ^ i * p.back

namespace Chained
variable {a b : Fragment} {areaB : Set Nat} {marks : List Nat}

theorem single (h : graph.Holds x area p) : graph.Chained x area p [x.start] := by
  refine ⟨?_, ?_⟩
  · rw [List.length_singleton, pow_one]
    exact h
  · intro i m hm
    obtain ⟨rfl, rfl⟩ : i = 0 ∧ x.start = m := by simpa [List.getElem?_singleton] using hm
    exact ⟨h.start_mem, h.start_ne, by rw [h.back, pow_zero, one_mul]⟩

/-- One more copy. -/
theorem concat (h : graph.Chained a area p marks) (hb : graph.Holds b areaB p) (apart : Disjoint area areaB) :
    (graph.concat a b).1.Chained (graph.concat a b).2 (area ∪ areaB) p (marks ++ [b.start]) := by
  refine ⟨?_, ?_⟩
  · rw [List.length_append, List.length_singleton, pow_succ]
    exact holds_concat h.holds hb apart
  · intro i m hm
    rw [List.getElem?_append] at hm
    -- a mark of the chain, or the start of the new copy
    split at hm
    · obtain ⟨mem, ne, words⟩ := h.mark i m hm
      refine ⟨.inl mem, fun same => Set.disjoint_left.mp apart mem (same ▸ hb.accept_mem), ?_⟩
      exact (between_concat_left h.holds hb apart mem ne).trans words
    · obtain ⟨hi, rfl⟩ : i - marks.length = 0 ∧ b.start = m := by
        simpa [List.getElem?_singleton] using hm
      refine ⟨.inr hb.start_mem, hb.start_ne, ?_⟩
      rw [show i = marks.length by omega]
      exact (between_concat_right h.holds hb apart hb.start_mem).trans (by rw [hb.back])

/-- **A chain of copies**, all of them made in new states. -/
theorem chain {base : Graph} {areaX : Set Nat} {rest : List Fragment} {ps : List Passage}
    (h : graph.Chained a area p marks) (keeps : base.Keeps graph areaX)
    (sub : area ⊆ areaX ∪ base.unused) (laid : graph.Laid ({s | s < base.stateCount} ∪ area) rest ps)
    (same : ∀ q ∈ ps, q = p) :
    base.Keeps (graph.chain a rest).1 areaX ∧ ∃ area' ⊆ areaX ∪ base.unused,
      (graph.chain a rest).1.Chained (graph.chain a rest).2 area' p (marks ++ rest.map (·.start)) := by
  -- on the copies to come: each lies beside the chain and beside the states of the beginning
  induction rest generalizing graph a area marks ps with
  | nil =>
    rw [List.map_nil, List.append_nil]
    exact ⟨keeps, area, sub, h⟩
  | cons next rest ih =>
    cases laid with
    | @cons _ areaN _ q _ ps holds apart others =>
      obtain rfl := same q List.mem_cons_self
      rw [Set.disjoint_union_left] at apart
      have keepsConcat := keeps_concat (b := next) h.holds
      have subN : areaN ⊆ base.unused := fun s hs =>
        Nat.le_of_not_lt fun hlt => Set.disjoint_left.mp apart.1 hlt hs
      have others' : (graph.concat a next).1.Laid ({s | s < base.stateCount} ∪ (area ∪ areaN)) rest ps := by
        rw [← Set.union_assoc]
        exact others.frame (keepsConcat.mono fun s hs => .inl (.inr hs)) Set.subset_union_left
      rw [List.map_cons, List.append_cons]
      exact ih (h.concat holds apart.2) (keeps.trans keepsConcat sub)
        (Set.union_subset sub fun s hs => .inr (subN hs)) others'
        fun q hq => same q (List.mem_cons_of_mem _ hq)

end Chained

/-! ## Leaving a chain -/

/-- The words of a fragment that may be left from the starts of the copies in it. -/
def leftFrom (graph : Graph) (x : Fragment) (through : Language Char) (copies : List Fragment) :
    Language Char :=
  {word | word ∈ through ∨ ∃ c ∈ copies, word ∈ between graph.outgoing x.start c.start}

theorem leftFrom_nil {through : Language Char} : graph.leftFrom x through [] = through := by
  ext word
  exact ⟨fun h => h.elim id (fun ⟨_, hc, _⟩ => absurd hc List.not_mem_nil), .inl⟩

theorem leftFrom_cons {through : Language Char} {c : Fragment} {copies : List Fragment} :
    graph.leftFrom x through (c :: copies) =
      graph.leftFrom x (through + between graph.outgoing x.start c.start) copies := by
  ext word
  constructor
  · rintro (h | ⟨d, hd, h⟩)
    · exact .inl (.inl h)
    · rcases List.mem_cons.mp hd with rfl | hd
      · exact .inl (.inr h)
      · exact .inr ⟨d, hd, h⟩
  · rintro ((h | h) | ⟨d, hd, h⟩)
    · exact .inl h
    · exact .inr ⟨c, List.mem_cons_self, h⟩
    · exact .inr ⟨d, List.mem_cons_of_mem _ hd, h⟩

/-- Only the words between the start and the copies matter. -/
theorem leftFrom_congr {through : Language Char} {copies : List Fragment}
    (h : ∀ c ∈ copies, between after.outgoing x.start c.start = between graph.outgoing x.start c.start) :
    after.leftFrom x through copies = graph.leftFrom x through copies := by
  ext word
  refine or_congr_right (exists_congr fun c => and_congr_right fun hc => ?_)
  rw [h c hc]

/-- Edges to the end from the starts of copies. -/
theorem holds_skips {copies : List Fragment} (h : graph.Holds x area p)
    (inside : ∀ c ∈ copies, c.start ∈ area ∧ c.start ≠ x.accept) :
    graph.Keeps (copies.foldl (fun graph c => graph.addEpsilon c.start x.accept) graph) area ∧
      (copies.foldl (fun graph c => graph.addEpsilon c.start x.accept) graph).Holds x area
        ⟨graph.leftFrom x p.through copies, p.back⟩ := by
  induction copies generalizing graph p with
  | nil =>
    rw [leftFrom_nil]
    exact ⟨.refl, h⟩
  | cons c copies ih =>
    obtain ⟨mem, ne⟩ := inside c List.mem_cons_self
    have inside' := fun c hc => inside c (List.mem_cons_of_mem _ hc)
    -- the edges from the other marks find them as they were: no way leads back out of the end
    have left := h.leave none mem ne rfl
    rw [words_epsilon, mul_one] at left
    obtain ⟨keeps, holds⟩ := ih left inside'
    rw [leftFrom_cons, ← leftFrom_congr fun d hd => h.between_leave mem (inside' d hd).2]
    exact ⟨(Keeps.refl.addEdge (.inl mem)).trans keeps Set.subset_union_left, holds⟩

/-- The marks of a chain from which it may be left. -/
theorem Chained.leftFrom_drop {copies : List Fragment} (h : graph.Chained x area p (copies.map (·.start)))
    (min : Nat) (word : List Char) :
    word ∈ graph.leftFrom x (p.through ^ copies.length) (copies.drop min) ↔
      word ∈ p.through ^ copies.length ∨
        ∃ i, min ≤ i ∧ i < copies.length ∧ word ∈ p.through ^ i * p.back := by
  refine or_congr_right ⟨?_, ?_⟩
  · rintro ⟨c, hc, hword⟩
    obtain ⟨i, hi⟩ := List.mem_iff_getElem?.mp hc
    rw [List.getElem?_drop] at hi
    obtain ⟨_, _, words⟩ := h.mark (min + i) c.start (by rw [List.getElem?_map, hi]; rfl)
    exact ⟨min + i, Nat.le_add_right _ _, (List.getElem?_eq_some_iff.mp hi).1, words ▸ hword⟩
  · rintro ⟨i, hmin, hi, hword⟩
    obtain ⟨_, _, words⟩ := h.mark i copies[i].start (by rw [List.getElem?_map, List.getElem?_eq_getElem hi]; rfl)
    refine ⟨copies[i], ?_, words.symm ▸ hword⟩
    refine List.mem_iff_getElem?.mpr ⟨i - min, ?_⟩
    rw [List.getElem?_drop, Nat.add_sub_of_le hmin]
    exact List.getElem?_eq_getElem hi

/-- **Counted repetition with an upper bound.** -/
theorem makes_repeatBounded (h : graph.Holds x area p) (min max : Nat) :
    graph.Makes area (graph.repeatBounded x min max) (p.repeatBounded min max) := by
  let others := (graph.copies x (Nat.max max min - 1)).2
  let chain := (graph.copies x (Nat.max max min - 1)).1.chain x others
  obtain ⟨keeps, laid⟩ := laid_copies h (Nat.max max min - 1)
  have count : (x :: others).length = Passage.chainLength min max := by
    rw [List.length_cons, laid.length_eq, List.length_replicate, Passage.chainLength]
  have beside : (graph.copies x (Nat.max max min - 1)).1.Laid ({s | s < graph.stateCount} ∪ area) others _ :=
    laid.mono (Set.union_subset Set.subset_union_left fun s hs => .inl (h.within s hs))
  obtain ⟨keepsChain, area', sub, chained⟩ := (Chained.single (h.frame keeps (Set.empty_disjoint _))).chain
    (keeps.mono (Set.empty_subset area)) Set.subset_union_left beside fun q hq => List.eq_of_mem_replicate hq
  have chained : chain.1.Chained chain.2 area' p ((x :: others).map (·.start)) := chained
  have whole := chained.holds
  rw [List.length_map] at whole
  have inside : ∀ c ∈ (x :: others).drop min, c.start ∈ area' ∧ c.start ≠ chain.2.accept := by
    intro c hc
    obtain ⟨i, hi⟩ := List.mem_iff_getElem?.mp (List.mem_of_mem_drop hc)
    obtain ⟨mem, ne, _⟩ := chained.mark i c.start (by rw [List.getElem?_map, hi]; rfl)
    exact ⟨mem, ne⟩
  obtain ⟨keepsSkips, holds⟩ := holds_skips whole inside
  have words : chain.1.leftFrom chain.2 (p.through ^ (x :: others).length) ((x :: others).drop min) =
      (p.repeatBounded min max).through := by
    ext word
    rw [chained.leftFrom_drop, count]
    rfl
  rw [words] at holds
  exact ⟨keepsChain.trans keepsSkips sub, area', sub, holds⟩

/-- A copy that may be passed any number of times. -/
theorem makes_tail (h : graph.Holds x area p) :
    graph.Makes ∅ ((graph.copy x).1.star (graph.copy x).2) (PatternAlgebra.passages.star p) := by
  obtain ⟨keeps, _, sub, copy⟩ := makes_copy h
  exact (makes_star copy).of_keeps keeps sub

/-- What is made of an area overlaps no other area. -/
theorem disjoint_of_made {made other : Set Nat} (sub : made ⊆ area ∪ graph.unused)
    (within : ∀ s ∈ other, s < graph.stateCount) (apart : Disjoint area other) : Disjoint made other := by
  refine Set.disjoint_left.mpr fun s hs hother => ?_
  rcases sub hs with hs | hs
  · exact Set.disjoint_left.mp apart hs hother
  · exact Nat.not_lt.mpr hs (within s hother)

/-- An exact repetition lies beside the starred copy that comes behind it. -/
theorem exists_parts (h : graph.Holds x area p) (n : Nat) :
    let tail := (graph.copy x).1.star (graph.copy x).2
    let head := tail.1.repeatBounded x n n
    ∃ areaH areaT, graph.Keeps tail.1 ∅ ∧ tail.1.Keeps head.1 area ∧
      areaH ⊆ area ∪ tail.1.unused ∧ areaT ⊆ graph.unused ∧
      head.1.Holds head.2 areaH (p.repeatBounded n n) ∧ tail.1.Holds tail.2 areaT (PatternAlgebra.passages.star p) ∧
      Disjoint area areaT ∧ Disjoint areaH areaT := by
  obtain ⟨keepsTail, areaT, subT, tail⟩ := makes_tail h
  rw [Set.empty_union] at subT
  obtain ⟨keepsHead, areaH, subH, head⟩ := makes_repeatBounded (h.frame keepsTail (Set.empty_disjoint _)) n n
  have apart : Disjoint area areaT := disjoint_of_unused h.within subT
  exact ⟨areaH, areaT, keepsTail, keepsHead, subH, subT, head, tail, apart, disjoint_of_made subH tail.within apart⟩

/-- **Repetition.**  Without an upper bound it is an exact one with any number of passes behind it. -/
theorem makes_repeat (h : graph.Holds x area p) (min : Nat) (max : Option Nat) :
    graph.Makes area (graph.repeat x min max) (PatternAlgebra.passages.repeat p min max) := by
  cases max with
  | some max => exact makes_repeatBounded h min max
  | none =>
    cases min with
    | zero => exact makes_star h
    | succ min =>
      obtain ⟨areaH, areaT, keepsTail, keepsHead, subH, subT, head, tail, apart, disjoint⟩ := exists_parts h (min + 1)
      have sub : areaH ∪ areaT ⊆ area ∪ graph.unused := by
        rintro s (hs | hs)
        · exact (subH hs).imp id fun hs => keepsTail.unused_subset hs
        · exact .inr (subT hs)
      have keeps := (keepsTail.mono (Set.empty_subset area)).trans keepsHead Set.subset_union_left
      have words : PatternAlgebra.passages.concat (p.repeatBounded (min + 1) (min + 1))
          (PatternAlgebra.passages.star p) = PatternAlgebra.passages.repeat p (min + 1) none :=
        congrArg (Passage.mk · p.back) (congrArg (· * _)
          (Passage.through_repeatBounded_self (Nat.le_add_left 1 min)))
      rw [← words]
      exact (makes_concat head (tail.frame keepsHead apart) disjoint).of_keeps keeps sub

end Graph
end TableParsing
