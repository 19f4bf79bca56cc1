import TableParsing.Lr.Closure
import TableParsing.Proofs.Lr.First

/-! # Closures answer every request

A closure is finished when every item in it is **answered**: the productions that it asks for are there, with
the terminals that it asks for.  The invariant of the search (`Expansion.Searched`) is that an item is
answered or on the stack; a visit may leave one item unanswered while its request is being carried out.

A visit puts a position on the stack only with a new core or a new terminal for one.  So the stack
and the **room** for those shrink together by one at every visit (`Searched.visit`), and the bound on the
number of visits is enough for the stack to run empty.

Which cores a closure has depends on the cores of the kernel alone (`IsClosure.has_iff`). -/

namespace TableParsing

/-! ## Cores of a grammar -/

namespace Cfg
variable (cfg : Cfg)

/-- Whether a core is a production with a place in its right-hand side. -/
def IsCore (core : Core) : Prop :=
  core.production ≤ cfg.rules.size ∧ core.dot ≤ (cfg.symbolsOf core.production).length

/-- The cores that closing a kernel leads to. -/
inductive Reached (kernel : ItemSet) : Core → Prop
  | kernel {core : Core} (h : kernel.Has core) : Reached kernel core
  | expand {core : Core} {n p : Nat} (h : Reached kernel core)
      (next : cfg.nextSymbol? core = some (.nonTerminal n)) (hp : p ∈ cfg.productionsOf n) :
      Reached kernel ⟨p, 0⟩

variable {cfg} {core : Core} {kernel other : ItemSet} {n p : Nat}

theorem Reached.mono (h : ∀ core, kernel.Has core → other.Has core) (hr : cfg.Reached kernel core) :
    cfg.Reached other core := by
  induction hr with
  | kernel hc => exact .kernel (h _ hc)
  | expand _ next hp ih => exact .expand ih next hp

theorem mem_productionsOf : p ∈ cfg.productionsOf n ↔ cfg.resultOf? p = some n := by
  rw [productionsOf, List.mem_filter, List.mem_range, decide_eq_true_eq]
  refine and_iff_right_of_imp fun h => ?_
  obtain ⟨rule, hr, -⟩ := Option.map_eq_some_iff.mp h
  exact (Array.getElem?_eq_some_iff.mp hr).1

theorem resultOf?_eq_some_iff :
    cfg.resultOf? p = some n ↔ ∃ rule, cfg.rules[p]? = some rule ∧ rule.result = n := Option.map_eq_some_iff

theorem lt_of_mem_productionsOf (h : p ∈ cfg.productionsOf n) : p < cfg.rules.size := by
  obtain ⟨rule, hr, -⟩ := resultOf?_eq_some_iff.mp (mem_productionsOf.mp h)
  exact (Array.getElem?_eq_some_iff.mp hr).1

theorem isCore_zero (h : p ≤ cfg.rules.size) : cfg.IsCore ⟨p, 0⟩ := ⟨h, Nat.zero_le _⟩

theorem symbolsOf_rule {rule : Rule} (h : cfg.rules[p]? = some rule) : cfg.symbolsOf p = rule.symbols := by
  rw [symbolsOf, h]

theorem symbolsOf_augmented : cfg.symbolsOf cfg.augmented = [.nonTerminal cfg.start] := by
  rw [symbolsOf, augmented, Array.getElem?_eq_none (Nat.le_refl _)]

/-- The terminals on the right-hand sides are there. -/
theorem WellFormed.lt_of_mem_symbolsOf (wf : cfg.WellFormed) {t : Nat}
    (h : .terminal t ∈ cfg.symbolsOf p) : t < cfg.terminalCount := by
  rw [symbolsOf] at h
  split at h
  · rename_i rule hr
    exact wf.terminal_lt rule (Array.mem_of_getElem? hr) t h
  · simp at h

end Cfg

/-- Whether the cores are cores of the grammar, and the lookaheads fit its terminals. -/
def ItemSet.Fits (cfg : Cfg) (set : ItemSet) : Prop :=
  ∀ item ∈ set.items, cfg.IsCore item.core ∧ item.lookahead.Fits cfg.terminalCount

namespace ItemSet
variable {cfg : Cfg} {set : ItemSet} {core : Core} {lookahead : TerminalSet} {t : Nat}

theorem Fits.isCore (fits : set.Fits cfg) (h : set.Has core) : cfg.IsCore core := by
  obtain ⟨item, hm, rfl⟩ := set.has_iff.mp h
  exact (fits item hm).1

theorem Fits.lt_of_allows (fits : set.Fits cfg) (h : set.Allows core t) : t < cfg.terminalCount := by
  obtain ⟨item, hm, -, ht⟩ := h
  exact (fits item hm).2.lt_of_contains t ht

theorem fits_empty : empty.Fits cfg := fun item hm =>
  absurd (empty.has_iff.mpr ⟨item, hm, rfl⟩) not_has_empty

theorem Fits.lookaheads (fits : set.Fits cfg) : set.LookaheadsFit cfg.terminalCount :=
  fun item hm => (fits item hm).2

theorem Fits.insert (fits : set.Fits cfg) (hc : cfg.IsCore core) (hl : lookahead.Fits cfg.terminalCount) :
    (set.insert core lookahead).Fits cfg := by
  refine fun item hm => ⟨?_, fits.lookaheads.insert core hl item hm⟩
  rcases set.mem_items_insert.mp hm with ⟨hm, -⟩ | rfl
  · exact (fits item hm).1
  · exact hc

/-- Whether all productions of the non-terminal `n` are there with a lookahead. -/
def Answers (cfg : Cfg) (set : ItemSet) (n : Nat) (lookahead : TerminalSet) : Prop :=
  ∀ p ∈ cfg.productionsOf n, set.covers ⟨p, 0⟩ lookahead

theorem Answers.mono {other : ItemSet} {n : Nat} (h : set.Le other) (ha : set.Answers cfg n lookahead) :
    other.Answers cfg n lookahead := fun p hp => h.covers (ha p hp)

end ItemSet

namespace Cfg
variable {cfg : Cfg} {known : FirstSets} {item : Item} {n : Nat} {lookahead : TerminalSet}

/-! ## Requests -/

/-- The terminals that may follow the symbol behind the dot of an item. -/
def following (cfg : Cfg) (known : FirstSets) (item : Item) : TerminalSet :=
  let (first, nullable) :=
    cfg.firstOf known ((cfg.symbolsOf item.core.production).drop (item.core.dot + 1))
  if nullable then first.union item.lookahead else first

theorem request?_eq_some_iff : cfg.request? known item = some (n, lookahead) ↔
    cfg.nextSymbol? item.core = some (.nonTerminal n) ∧ lookahead = cfg.following known item := by
  rw [request?, nextSymbol?, following]
  by_cases hd : item.core.dot < (cfg.symbolsOf item.core.production).length
  · rw [List.drop_eq_getElem_cons hd, List.getElem?_eq_getElem hd]
    cases (cfg.symbolsOf item.core.production)[item.core.dot] with
    | terminal t => simp
    | nonTerminal m =>
      simp only [Option.some.injEq, Prod.mk.injEq, Symbol.nonTerminal.injEq]
      exact and_congr_right fun _ => eq_comm
  · rw [List.drop_eq_nil_of_le (Nat.le_of_not_lt hd), List.getElem?_eq_none (Nat.le_of_not_lt hd)]
    simp

theorem fits_following (wf : cfg.WellFormed) (fitsKnown : known.Fits cfg)
    (h : item.lookahead.Fits cfg.terminalCount) :
    (cfg.following known item).Fits cfg.terminalCount := by
  have first : (cfg.firstOf known ((cfg.symbolsOf item.core.production).drop (item.core.dot + 1))).1.Fits
      cfg.terminalCount :=
    fits_firstOf fitsKnown fun t ht => wf.lt_of_mem_symbolsOf (List.mem_of_mem_drop ht)
  rw [following]
  simp only
  split
  · exact first.union h
  · exact first

/-- Whether what an item asks for is in a set. -/
def Answered (cfg : Cfg) (known : FirstSets) (set : ItemSet) (item : Item) : Prop :=
  ∀ n, cfg.nextSymbol? item.core = some (.nonTerminal n) →
    set.Answers cfg n (cfg.following known item)

theorem Answered.mono {set other : ItemSet} (h : set.Le other) (ha : cfg.Answered known set item) :
    cfg.Answered known other item := fun n hn => (ha n hn).mono h

end Cfg

/-! ## The search -/

namespace Expansion
variable {cfg : Cfg} {known : FirstSets} {kernel : ItemSet} {run : Expansion} {lookahead : TerminalSet}
  {n p : Nat}

/-- Whether the item with a core is to be visited. -/
def Pending (run : Expansion) (core : Core) : Prop :=
  ∃ position ∈ run.stack, run.items.cores.elements[position]? = some core

/-- **The invariant of the search.**  Every item is answered, to be visited, or the one that `exempt` speaks
of. -/
structure Searched (cfg : Cfg) (known : FirstSets) (kernel : ItemSet) (exempt : Item → Prop)
    (run : Expansion) : Prop where
  kernel_le : kernel.Le run.items
  fits : run.items.Fits cfg
  reached : ∀ core, run.items.Has core → cfg.Reached kernel core
  asked : ∀ (n : Nat) (lookahead : TerminalSet), run.asked[n]? = some (some lookahead) →
    run.items.Answers cfg n lookahead
  settled : ∀ item ∈ run.items.items,
    run.Pending item.core ∨ cfg.Answered known run.items item ∨ exempt item

/-- The beginnings of the productions. -/
def beginnings (cfg : Cfg) : List Core := (List.range cfg.rules.size).map (⟨·, 0⟩)

/-- The number of beginnings, and of terminals behind them, that the items can still gain. -/
noncomputable def room (cfg : Cfg) (items : ItemSet) : Nat :=
  cfg.rules.size * (cfg.terminalCount + 1) -
    countHolding (ItemSet.facts (beginnings cfg) cfg.terminalCount) items.Holds

/-- A bound for the number of visits to come. -/
noncomputable def potential (cfg : Cfg) (run : Expansion) : Nat := run.stack.length + room cfg run.items

theorem insert_of_covers (h : run.items.covers ⟨p, 0⟩ lookahead) : run.insert lookahead p = run := by
  obtain ⟨items, stack, asked⟩ := run
  exact if_pos h

theorem items_insert (h : ¬run.items.covers ⟨p, 0⟩ lookahead) :
    (run.insert lookahead p).items = run.items.insert ⟨p, 0⟩ lookahead := by
  obtain ⟨items, stack, asked⟩ := run
  rw [insert]
  simp only
  rw [if_neg h]

theorem asked_insert (run : Expansion) (lookahead : TerminalSet) (p : Nat) :
    (run.insert lookahead p).asked = run.asked := by
  by_cases h : run.items.covers ⟨p, 0⟩ lookahead
  · rw [insert_of_covers h]
  · obtain ⟨items, stack, asked⟩ := run
    rw [insert]
    simp only
    rw [if_neg h]

/-- The item of a new core, or of one with new terminals, is to be visited. -/
theorem stack_insert (h : ¬run.items.covers ⟨p, 0⟩ lookahead) :
    ∃ position, (run.insert lookahead p).stack = position :: run.stack ∧
      (run.insert lookahead p).items.cores.elements[position]? = some ⟨p, 0⟩ := by
  -- the core has a position, whether it is new or not
  have has : (run.items.insert ⟨p, 0⟩ lookahead).Has ⟨p, 0⟩ := run.items.has_insert.mpr (.inr rfl)
  obtain ⟨position, hposition⟩ := Option.isSome_iff_exists.mp
    ((run.items.insert ⟨p, 0⟩ lookahead).cores.isSome_number?_iff.mpr has)
  refine ⟨position, ?_, ?_⟩
  · obtain ⟨items, stack, asked⟩ := run
    have there : (items.insert ⟨p, 0⟩ lookahead).position? ⟨p, 0⟩ = some position := hposition
    rw [insert]
    simp only
    rw [if_neg h, there]
    rfl
  · rw [items_insert h]
    exact (Numbering.number?_eq_some_iff _).mp hposition

theorem le_items_insert (run : Expansion) (lookahead : TerminalSet) (p : Nat) :
    run.items.Le (run.insert lookahead p).items := by
  by_cases h : run.items.covers ⟨p, 0⟩ lookahead
  · rw [insert_of_covers h]
    exact .refl _
  · rw [items_insert h]
    exact .insert _ _ _

theorem covers_items_insert (run : Expansion) (lookahead : TerminalSet) (p : Nat) :
    (run.insert lookahead p).items.covers ⟨p, 0⟩ lookahead := by
  by_cases h : run.items.covers ⟨p, 0⟩ lookahead
  · rw [insert_of_covers h]
    exact h
  · rw [items_insert h]
    exact run.items.covers_insert

theorem Pending.insert {core : Core} (h : run.Pending core) (lookahead : TerminalSet) (p : Nat) :
    (run.insert lookahead p).Pending core := by
  by_cases hc : run.items.covers ⟨p, 0⟩ lookahead
  · rwa [insert_of_covers hc]
  · obtain ⟨position, hm, hplace⟩ := h
    obtain ⟨new, hstack, -⟩ := stack_insert hc
    refine ⟨position, hstack ▸ List.mem_cons_of_mem _ hm, ?_⟩
    rw [items_insert hc]
    exact Numbering.getElem?_of_prefix (run.items.toList_prefix_cores _ _) hplace

/-! ### Room -/

theorem room_insert_lt {items : ItemSet} (hl : lookahead.Fits cfg.terminalCount) (hp : p < cfg.rules.size)
    (h : ¬items.covers ⟨p, 0⟩ lookahead) : room cfg (items.insert ⟨p, 0⟩ lookahead) < room cfg items := by
  have mem : (⟨p, 0⟩ : Core) ∈ beginnings cfg := List.mem_map.mpr ⟨p, List.mem_range.mpr hp, rfl⟩
  -- what is new is a beginning, or a terminal behind one
  have more := ItemSet.countHolding_lt (.insert items ⟨p, 0⟩ lookahead) mem hl h items.covers_insert
  have total := ItemSet.length_facts (beginnings cfg) cfg.terminalCount
  rw [beginnings, List.length_map, List.length_range] at total
  rw [room, room, ← total]
  exact Nat.sub_lt_sub_left (Nat.lt_of_lt_of_le more countHolding_le_length) more

theorem potential_insert_le (hl : lookahead.Fits cfg.terminalCount) (hp : p < cfg.rules.size) :
    (run.insert lookahead p).potential cfg ≤ run.potential cfg := by
  by_cases h : run.items.covers ⟨p, 0⟩ lookahead
  · exact Nat.le_of_eq (by rw [insert_of_covers h])
  · obtain ⟨position, hstack, -⟩ := stack_insert h
    have := room_insert_lt hl hp h
    rw [potential, potential, hstack, items_insert h, List.length_cons]
    omega

/-! ### Steps -/

section Steps
variable {exempt : Item → Prop}

theorem Searched.insert (searched : run.Searched cfg known kernel exempt)
    (hl : lookahead.Fits cfg.terminalCount) {core : Core} (hc : run.items.Has core)
    (next : cfg.nextSymbol? core = some (.nonTerminal n)) (hp : p ∈ cfg.productionsOf n) :
    (run.insert lookahead p).Searched cfg known kernel exempt := by
  by_cases h : run.items.covers ⟨p, 0⟩ lookahead
  · rwa [insert_of_covers h]
  have grows := run.le_items_insert lookahead p
  have items := items_insert h
  refine ⟨searched.kernel_le.trans grows, ?_, ?_, ?_, ?_⟩
  · rw [items]
    exact searched.fits.insert (Cfg.isCore_zero (Nat.le_of_lt (Cfg.lt_of_mem_productionsOf hp))) hl
  · intro other ho
    rw [items, ItemSet.has_insert] at ho
    rcases ho with ho | rfl
    · exact searched.reached other ho
    · exact .expand (searched.reached core hc) next hp
  · intro m asked hm
    rw [asked_insert] at hm
    exact (searched.asked m asked hm).mono grows
  · intro item hm
    rw [items] at hm
    rcases run.items.mem_items_insert.mp hm with ⟨hm, -⟩ | rfl
    · rcases searched.settled item hm with pending | answered | exempted
      · exact .inl (pending.insert lookahead p)
      · exact .inr (.inl (answered.mono grows))
      · exact .inr (.inr exempted)
    -- the item that has changed is on the stack again
    · obtain ⟨position, hstack, hplace⟩ := stack_insert h
      exact .inl ⟨position, hstack ▸ List.mem_cons_self, hplace⟩

/-- What inserting some productions of a non-terminal comes to. -/
theorem Searched.insertAll (searched : run.Searched cfg known kernel exempt)
    (hl : lookahead.Fits cfg.terminalCount) {core : Core} (hc : run.items.Has core)
    (next : cfg.nextSymbol? core = some (.nonTerminal n)) {ps : List Nat}
    (hps : ∀ p ∈ ps, p ∈ cfg.productionsOf n) :
    (ps.foldl (Expansion.insert lookahead) run).Searched cfg known kernel exempt ∧
      run.items.Le (ps.foldl (Expansion.insert lookahead) run).items ∧
      (∀ p ∈ ps, (ps.foldl (Expansion.insert lookahead) run).items.covers ⟨p, 0⟩ lookahead) ∧
      (ps.foldl (Expansion.insert lookahead) run).potential cfg ≤ run.potential cfg := by
  induction ps generalizing run with
  | nil => exact ⟨searched, .refl _, fun p hp => absurd hp List.not_mem_nil, Nat.le_refl _⟩
  | cons p ps ih =>
    have hp := hps p List.mem_cons_self
    have grows := run.le_items_insert lookahead p
    obtain ⟨searched', le, covers, potential⟩ := ih (searched.insert hl hc next hp) (grows.has core hc)
      fun q hq => hps q (List.mem_cons_of_mem _ hq)
    refine ⟨searched', grows.trans le, ?_, ?_⟩
    · intro q hq
      rcases List.mem_cons.mp hq with rfl | hq
      · exact le.covers (run.covers_items_insert lookahead q)
      · exact covers q hq
    · exact Nat.le_trans potential (potential_insert_le hl (Cfg.lt_of_mem_productionsOf hp))

/-- Inserting does not look at what was asked for. -/
theorem foldl_insert_note (ps : List Nat) (run : Expansion) (n : Nat) (lookahead asked : TerminalSet) :
    ps.foldl (Expansion.insert lookahead) (run.note n asked) =
      (ps.foldl (Expansion.insert lookahead) run).note n asked := by
  induction ps generalizing run with
  | nil => rfl
  | cons p ps ih =>
    have step : (run.note n asked).insert lookahead p = (run.insert lookahead p).note n asked := by
      obtain ⟨items, stack, asked'⟩ := run
      rw [note, Expansion.insert, Expansion.insert]
      simp only
      split <;> rfl
    rw [List.foldl_cons, step, ih, List.foldl_cons]

theorem Searched.note (searched : run.Searched cfg known kernel exempt)
    (answers : run.items.Answers cfg n lookahead) :
    (run.note n lookahead).Searched cfg known kernel exempt := by
  obtain ⟨items, stack, asked⟩ := run
  refine ⟨searched.kernel_le, searched.fits, searched.reached, ?_, searched.settled⟩
  intro m union hm p hp
  change (asked.modify n _)[m]? = _ at hm
  rw [Array.getElem?_modify] at hm
  split at hm
  -- what was asked for before is answered, and so is what is asked for now
  · rename_i same
    subst same
    obtain ⟨old, hold, hunion⟩ := Option.map_eq_some_iff.mp hm
    cases hunion
    have ⟨has, allows⟩ := items.covers_iff.mp (answers p hp)
    refine items.covers_iff.mpr ⟨has, fun t ht => ?_⟩
    rcases TerminalSet.contains_union.mp ht with ht | ht
    · cases old with
      | none => simp [TerminalSet.contains] at ht
      | some before => exact (items.covers_iff.mp (searched.asked n before hold p hp)).2 t ht
    · exact allows t ht
  · exact searched.asked m union hm p hp

theorem Searched.settle (searched : run.Searched cfg known kernel exempt)
    (h : ∀ item ∈ run.items.items, exempt item → cfg.Answered known run.items item) :
    run.Searched cfg known kernel fun _ => False :=
  { searched with
    settled := fun item hm => (searched.settled item hm).imp_right fun hs =>
      .inl (hs.elim id (h item hm)) }

/-- **A request is carried out.**  Afterwards the item that made it needs no exemption. -/
theorem Searched.ask {item : Item} (wf : cfg.WellFormed) (fitsKnown : known.Fits cfg)
    (searched : run.Searched cfg known kernel (· = item)) (hm : item ∈ run.items.items)
    (next : cfg.nextSymbol? item.core = some (.nonTerminal n)) :
    (cfg.ask run n (cfg.following known item)).Searched cfg known kernel (fun _ => False) ∧
      (cfg.ask run n (cfg.following known item)).potential cfg ≤ run.potential cfg := by
  have hl := Cfg.fits_following wf fitsKnown (searched.fits item hm).2
  have settled {run' : Expansion} (hs : run'.Searched cfg known kernel (· = item))
      (answers : run'.items.Answers cfg n (cfg.following known item)) :
      run'.Searched cfg known kernel fun _ => False := by
    refine hs.settle ?_
    rintro _ - rfl m hm'
    cases next.symm.trans hm'
    exact answers
  rw [Cfg.ask]
  split
  -- asked for before: the productions are there with these terminals already
  · rename_i asked
    refine ⟨settled searched fun p hp => ?_, Nat.le_refl _⟩
    rw [wasAsked, Array.getD_eq_getD_getElem?] at asked
    cases hn : run.asked[n]? with
    | none => simp [hn] at asked
    | some before =>
      cases before with
      | none => simp [hn] at asked
      | some before =>
        simp only [hn, Option.getD_some, Option.any_some] at asked
        obtain ⟨has, allows⟩ := run.items.covers_iff.mp (searched.asked n before hn p hp)
        exact run.items.covers_iff.mpr ⟨has, fun t ht =>
          allows t (TerminalSet.includes_iff.mp asked t ht)⟩
  · obtain ⟨inserted, -, covers, potential⟩ := searched.insertAll hl
      (run.items.has_iff.mpr ⟨item, hm, rfl⟩) next (fun p hp => hp)
    rw [foldl_insert_note]
    exact ⟨settled (inserted.note covers) covers, potential⟩

theorem Searched.visit {items : ItemSet} {position : Nat} {stack : List Nat}
    {asked : Array (Option TerminalSet)} (wf : cfg.WellFormed) (fitsKnown : known.Fits cfg)
    (searched : Searched cfg known kernel (fun _ => False) ⟨items, position :: stack, asked⟩) :
    (cfg.visit known position ⟨items, stack, asked⟩).Searched cfg known kernel (fun _ => False) ∧
      (cfg.visit known position ⟨items, stack, asked⟩).potential cfg ≤
        potential cfg ⟨items, stack, asked⟩ := by
  -- the item at the position that has left the stack is the one that may be unanswered
  have popped : Searched cfg known kernel (fun item => items.item? position = some item)
      ⟨items, stack, asked⟩ := by
    refine ⟨searched.kernel_le, searched.fits, searched.reached, searched.asked, ?_⟩
    intro item hm
    rcases searched.settled item hm with ⟨other, ho, hplace⟩ | answered | no
    · rcases List.mem_cons.mp ho with rfl | ho
      · obtain ⟨i, hi, hl⟩ := items.mem_items_iff.mp hm
        cases items.cores.elements_inj hplace hi
        exact .inr (.inr (items.item?_eq_some_iff.mpr ⟨hi, hl⟩))
      · exact .inl ⟨other, ho, hplace⟩
    · exact .inr (.inl answered)
    · exact no.elim
  rw [Cfg.visit]
  cases hitem : items.item? position with
  | none =>
    simp only [Option.bind_none]
    refine ⟨popped.settle fun item _ h => ?_, Nat.le_refl _⟩
    cases hitem.symm.trans h
  | some item =>
    have hm : item ∈ items.items := items.mem_items_iff.mpr ⟨position, items.item?_eq_some_iff.mp hitem⟩
    simp only [Option.bind_some]
    cases hrequest : cfg.request? known item with
    | none =>
      refine ⟨popped.settle fun other _ h n hn => ?_, Nat.le_refl _⟩
      cases hitem.symm.trans h
      rw [Cfg.request?_eq_some_iff.mpr ⟨hn, rfl⟩] at hrequest
      cases hrequest
    | some request =>
      obtain ⟨n, lookahead⟩ := request
      obtain ⟨next, rfl⟩ := Cfg.request?_eq_some_iff.mp hrequest
      refine Searched.ask wf fitsKnown { popped with settled := fun other ho => ?_ } hm next
      refine (popped.settled other ho).imp_right (Or.imp_right fun h => ?_)
      exact Option.some.inj (h.symm.trans hitem)

end Steps

/-! ### The beginning -/

/-- A closure when nothing has been visited yet: all items of the kernel are to be. -/
def start (cfg : Cfg) (kernel : ItemSet) : Expansion :=
  ⟨kernel, (List.range kernel.size).reverse, Array.replicate cfg.nonTerminalCount none⟩

theorem searched_start (fits : kernel.Fits cfg) : (start cfg kernel).Searched cfg known kernel fun _ => False := by
  refine ⟨.refl kernel, fits, fun _ h => .kernel h, ?_, ?_⟩
  · intro n lookahead h
    simp only [start, Array.getElem?_replicate] at h
    split at h <;> cases h
  · intro item hm
    obtain ⟨position, hp, -⟩ := kernel.mem_items_iff.mp hm
    refine .inl ⟨position, ?_, hp⟩
    have := (Array.getElem?_eq_some_iff.mp hp).1
    simpa [start, ItemSet.size, Numbering.size] using this

theorem potential_start_le :
    (start cfg kernel).potential cfg ≤ kernel.size + cfg.rules.size * (cfg.terminalCount + 1) := by
  rw [potential, start, List.length_reverse, List.length_range, room]
  omega

end Expansion

namespace Cfg
variable {cfg : Cfg} {known : FirstSets} {kernel : ItemSet}

/-! ## The closure -/

/-- What a closed set has to do with its kernel. -/
structure IsClosure (cfg : Cfg) (known : FirstSets) (kernel set : ItemSet) : Prop where
  kernel_le : kernel.Le set
  fits : set.Fits cfg
  reached : ∀ core, set.Has core → cfg.Reached kernel core
  answered : ∀ item ∈ set.items, cfg.Answered known set item

/-- With enough visits the stack runs empty. -/
theorem isClosure_visitAll (wf : cfg.WellFormed) (fitsKnown : known.Fits cfg) {visits : Nat}
    {run : Expansion} (searched : run.Searched cfg known kernel fun _ => False)
    (enough : run.potential cfg ≤ visits) : cfg.IsClosure known kernel (cfg.visitAll known visits run) := by
  have done {run : Expansion} (searched : run.Searched cfg known kernel fun _ => False)
      (empty : run.stack = []) : cfg.IsClosure known kernel run.items := by
    refine ⟨searched.kernel_le, searched.fits, searched.reached, ?_⟩
    intro item hm
    rcases searched.settled item hm with ⟨position, hp, -⟩ | answered | no
    · rw [empty] at hp
      cases hp
    · exact answered
    · exact no.elim
  -- on the visits: each takes a position off the stack, and what it puts there it takes from the room
  induction visits generalizing run with
  | zero =>
    refine done searched (List.eq_nil_of_length_eq_zero ?_)
    rw [Expansion.potential] at enough
    omega
  | succ visits ih =>
    obtain ⟨items, stack, asked⟩ := run
    cases stack with
    | nil => exact done searched rfl
    | cons position stack =>
      obtain ⟨searched', potential⟩ := searched.visit wf fitsKnown
      refine ih searched' (Nat.le_trans potential ?_)
      have before : Expansion.potential cfg ⟨items, position :: stack, asked⟩ =
          Expansion.potential cfg ⟨items, stack, asked⟩ + 1 := Nat.add_right_comm stack.length 1 _
      omega

/-- **A closure answers every request.** -/
theorem isClosure_closure (wf : cfg.WellFormed) (fitsKnown : known.Fits cfg) (fits : kernel.Fits cfg) :
    cfg.IsClosure known kernel (cfg.closure known kernel) :=
  isClosure_visitAll wf fitsKnown (Expansion.searched_start fits) Expansion.potential_start_le

theorem IsClosure.has_iff {set : ItemSet} {core : Core} (closure : cfg.IsClosure known kernel set) :
    set.Has core ↔ cfg.Reached kernel core := by
  refine ⟨closure.reached core, ?_⟩
  intro h
  induction h with
  | kernel h => exact closure.kernel_le.has _ h
  | expand _ next hp ih =>
    obtain ⟨item, hm, rfl⟩ := set.has_iff.mp ih
    exact (set.covers_iff.mp (closure.answered item hm _ next _ hp)).1

end Cfg
end TableParsing
