import TableParsing.Proofs.Lr.Collection

/-! # Numbers that have a place

The construction of the states keeps what it knows of the non-terminals in arrays: whether they are nullable, their first
sets, and their productions.  It goes to these arrays by the numbers that stand in the grammar.  Below is the construction
once more, made so that **it has no result as soon as a number has no place** in the array that it is looked up in or
written to.

In a grammar whose symbols are all there every number has a place, and the construction comes to the same states
(`collection?_eq`). -/

namespace TableParsing

/-! ## Steps that may fail -/

/-- Changes what stands at a place of an array, if the array has that place. -/
def modifyAt? {β : Type} (array : Array β) (i : Nat) (f : β → β) : Option (Array β) :=
  if i < array.size then some (array.modify i f) else none

theorem modifyAt?_eq {β : Type} {array : Array β} {i : Nat} (h : i < array.size) (f : β → β) :
    modifyAt? array i f = some (array.modify i f) := if_pos h

/-- A fold has a result if no step fails while an invariant holds that every step keeps. -/
theorem foldlM_eq_some {β γ : Type} (Inv : β → Prop) {f : β → γ → β} {f? : β → γ → Option β} {l : List γ}
    (step : ∀ b, Inv b → ∀ c ∈ l, f? b c = some (f b c) ∧ Inv (f b c)) {b : β} (start : Inv b) :
    l.foldlM f? b = some (l.foldl f b) := by
  induction l generalizing b with
  | nil => rfl
  | cons c l ih =>
    obtain ⟨here, inv⟩ := step b start c List.mem_cons_self
    rw [List.foldlM_cons, here, List.foldl_cons]
    exact ih (fun b inv c hc => step b inv c (List.mem_cons_of_mem _ hc)) inv

/-- Applies `f?` until nothing changes, at most the given number of times. -/
def stabilize? {β : Type} [DecidableEq β] (f? : β → Option β) : (rounds : Nat) → β → Option β
  | 0, b => some b
  | rounds + 1, b => do
    let next ← f? b
    if next = b then some b else stabilize? f? rounds next

theorem stabilize?_eq {β : Type} [DecidableEq β] (Inv : β → Prop) {f : β → β} {f? : β → Option β}
    (step : ∀ b, Inv b → f? b = some (f b) ∧ Inv (f b)) (rounds : Nat) {b : β} (start : Inv b) :
    stabilize? f? rounds b = some (stabilize f rounds b) := by
  induction rounds generalizing b with
  | zero => rfl
  | succ rounds ih =>
    obtain ⟨here, inv⟩ := step b start
    rw [stabilize?, here, stabilize]
    simp only [Option.bind_eq_bind, Option.bind_some]
    split
    · rfl
    · exact ih inv

namespace Cfg
variable (cfg : Cfg)

/-! ## First sets -/

/-- The first terminals of a word of symbols, and whether all of the word can be empty. -/
def firstOf? (known : FirstSets) : List Symbol → Option (TerminalSet × Bool)
  | [] => some (.ofSize cfg.terminalCount, true)
  | .terminal t :: _ => some ((TerminalSet.ofSize cfg.terminalCount).insert t, false)
  | .nonTerminal n :: symbols => do
    let first := (TerminalSet.ofSize cfg.terminalCount).union (← known.first[n]?)
    if ← known.nullable[n]? then
      let (rest, nullable) ← firstOf? known symbols
      return (first.union rest, nullable)
    else return (first, false)

/-- What is known after one more look at a rule. -/
def learn? (known : FirstSets) (rule : Rule) : Option FirstSets := do
  let (terminals, canBeEmpty) ← cfg.firstOf? known rule.symbols
  let first ← modifyAt? known.first rule.result (·.union terminals)
  let nullable ← modifyAt? known.nullable rule.result (· || canBeEmpty)
  return ⟨nullable, first⟩

/-- What is known of the non-terminals when no rule brings anything new. -/
def firstSets? : Option FirstSets :=
  stabilize? (fun known => cfg.rules.toList.foldlM cfg.learn? known)
    (cfg.nonTerminalCount * (cfg.terminalCount + 1) + 1) cfg.noFirstSets

/-! ## Closures -/

/-- The productions of each non-terminal. -/
def byResult? : Option (Array (List Nat)) :=
  cfg.rules.toList.zipIdx.foldlM (fun lists (rule, p) => modifyAt? lists rule.result (· ++ [p]))
    (Array.replicate cfg.nonTerminalCount [])

/-- Inserts the productions of the non-terminal `n` with `lookahead`. -/
def ask? (byResult : Array (List Nat)) (run : Expansion) (n : Nat) (lookahead : TerminalSet) : Option Expansion := do
  let productions ← byResult[n]?
  if run.wasAsked n lookahead then return run
  else return productions.foldl (Expansion.insert lookahead) (run.note n lookahead)

/-- Visits the item at a position. -/
def visit? (known : FirstSets) (byResult : Array (List Nat)) (position : Nat) (run : Expansion) : Option Expansion :=
  match run.items.item? position with
  | none => some run
  | some item =>
    match (cfg.symbolsOf item.core.production).drop item.core.dot with
    | .nonTerminal n :: rest => do
      let (first, nullable) ← cfg.firstOf? known rest
      ask? byResult run n (if nullable then first.union item.lookahead else first)
    | _ => some run

/-- Visits the items whose positions are on the stack, and those that come up, at most the given number of them. -/
def visitAll? (known : FirstSets) (byResult : Array (List Nat)) : (visits : Nat) → Expansion → Option ItemSet
  | 0, run => some run.items
  | visits + 1, run =>
    match run.stack with
    | [] => some run.items
    | position :: stack => do
      visitAll? known byResult visits (← cfg.visit? known byResult position { run with stack })

/-- The kernel with all items that it asks for. -/
def closure? (known : FirstSets) (byResult : Array (List Nat)) (kernel : ItemSet) : Option ItemSet :=
  cfg.visitAll? known byResult (kernel.size + cfg.rules.size * (cfg.terminalCount + 1))
    ⟨kernel, (List.range kernel.size).reverse, Array.replicate cfg.nonTerminalCount none⟩

end Cfg

/-! ## States -/

namespace Collection
variable (cfg : Cfg) (known : FirstSets) (byResult : Array (List Nat))

/-- The collection with a further state, whose transitions are to be followed. -/
def push? (key : Key) (kernel : ItemSet) : Collection → Option Collection
  | ⟨states, keys, queue⟩ => do
    let items ← cfg.closure? known byResult kernel
    return ⟨states.push ⟨kernel, items, []⟩, keys.insert key, queue ++ [states.size]⟩

/-- The collection with the items of `kernel` added to the kernel of the state `target`. -/
def absorb? (target : Nat) (kernel : ItemSet) : Collection → Option Collection
  | ⟨states, keys, queue⟩ =>
    let old := (states.getD target default).kernel
    if kernel.items.all fun item => old.covers item.core item.lookahead then some ⟨states, keys, queue⟩
    else do
      let merged := kernel.items.foldl (fun set item => set.insert item.core item.lookahead) old
      let items ← cfg.closure? known byResult merged
      let states := states.modify target fun state => { state with kernel := merged, items }
      return ⟨states, keys, if target ∈ queue then queue else queue ++ [target]⟩

/-- Follows the transition from the state `source` on `symbol` to the state of `kernel`. -/
def follow? (mergeCores : Bool) (source : Nat) (collection : Collection) (transition : Symbol × ItemSet) :
    Option Collection :=
  let (symbol, kernel) := transition
  let key := Key.ofKernel mergeCores kernel
  match collection.keys.number? key with
  | some target => do return (← collection.absorb? cfg known byResult target kernel).connect source symbol target
  | none => do
    let target := collection.states.size
    return (← collection.push? cfg known byResult key kernel).connect source symbol target

/-- Follows the transitions of the states in the queue, at most the given number of them. -/
def grow? (mergeCores : Bool) : (visits : Nat) → Collection → Option Collection
  | 0, collection => some collection
  | visits + 1, collection =>
    match collection.queue with
    | [] => some collection
    | source :: queue => do
      let items := (collection.states.getD source default).items
      grow? mergeCores visits (← (cfg.transitions items).foldlM (follow? cfg known byResult mergeCores source)
        { collection with queue })

end Collection

/-- The states of the grammar's automaton. -/
def Cfg.collection? (cfg : Cfg) (mergeCores : Bool) : Option (List Collection.State) := do
  let known ← cfg.firstSets?
  let byResult ← cfg.byResult?
  let start := cfg.startKernel
  let items ← cfg.closure? known byResult start
  let first : Collection := ⟨#[⟨start, items, []⟩], .ofList [Collection.Key.ofKernel mergeCores start], [0]⟩
  return (← first.grow? cfg known byResult mergeCores cfg.visitBound).states.toList

/-! ## All numbers have places -/

namespace Cfg
variable {cfg : Cfg} {known : FirstSets} {byResult : Array (List Nat)} {symbols : List Symbol} {n p : Nat}

theorem firstOf?_eq (fits : known.Fits cfg) (there : ∀ n, .nonTerminal n ∈ symbols → n < cfg.nonTerminalCount) :
    cfg.firstOf? known symbols = some (cfg.firstOf known symbols) := by
  induction symbols with
  | nil => rfl
  | cons symbol symbols ih =>
    cases symbol with
    | terminal t => rfl
    | nonTerminal n =>
      have bound := there n List.mem_cons_self
      have hfirst : n < known.first.size := fits.size_first.symm ▸ bound
      have hnullable : n < known.nullable.size := fits.size_nullable.symm ▸ bound
      have ih := ih fun n hn => there n (List.mem_cons_of_mem _ hn)
      rw [firstOf?, firstOf, Array.getElem?_eq_getElem hfirst, Array.getElem?_eq_getElem hnullable,
        ← Array.getElem_eq_getD (h := hfirst), ← Array.getElem_eq_getD (h := hnullable), ih]
      simp only [Option.bind_eq_bind, Option.bind_some]
      split <;> rfl

theorem learn?_eq (wf : cfg.WellFormed) {rule : Rule} (hr : rule ∈ cfg.rules) (fits : known.Fits cfg) :
    cfg.learn? known rule = some (cfg.learn known rule) := by
  have bound := wf.result_lt rule hr
  rw [learn?, firstOf?_eq fits (wf.nonTerminal_lt rule hr)]
  simp only [Option.bind_eq_bind, Option.bind_some]
  rw [modifyAt?_eq (fits.size_first.symm ▸ bound), Option.bind_some, modifyAt?_eq (fits.size_nullable.symm ▸ bound)]
  rfl

/-- **The first sets are found.** -/
theorem firstSets?_eq (wf : cfg.WellFormed) : cfg.firstSets? = some cfg.firstSets := by
  refine stabilize?_eq (FirstSets.Fits cfg) (fun known fits => ?_) _ fits_noFirstSets
  rw [← Array.foldl_toList]
  refine ⟨foldlM_eq_some (FirstSets.Fits cfg) (fun known fits rule hr => ?_) fits, ?_⟩
  · have hr := Array.mem_toList_iff.mp hr
    exact ⟨learn?_eq wf hr fits, fits_learn wf hr fits⟩
  · exact fits_round wf (fun rule hr => Array.mem_toList_iff.mp hr) fits

/-- The numbers of the rules of a list that have a result. -/
def numbersOf (rules : List Rule) (n : Nat) : List Nat :=
  (List.range rules.length).filter fun p => rules[p]?.map (·.result) = some n

theorem numbersOf_snoc (rules : List Rule) (rule : Rule) (n : Nat) : numbersOf (rules ++ [rule]) n =
    numbersOf rules n ++ if rule.result = n then [rules.length] else [] := by
  rw [numbersOf, List.length_append, List.length_singleton, List.range_succ, List.filter_append]
  congr 1
  · refine List.filter_congr fun p hp => ?_
    rw [List.getElem?_append_left (List.mem_range.mp hp)]
  · rw [List.filter_singleton, List.getElem?_append_right (Nat.le_refl _), Nat.sub_self]
    simp

/-- **Each rule has a place for its number**, in the list of its result. -/
theorem exists_byResult {count : Nat} {rules : List Rule} (there : ∀ rule ∈ rules, rule.result < count) :
    ∃ lists : Array (List Nat), rules.zipIdx.foldlM (fun lists (rule, p) => modifyAt? lists rule.result (· ++ [p]))
      (Array.replicate count []) = some lists ∧ lists.size = count ∧ ∀ n < count, lists[n]? = some (numbersOf rules n) := by
  induction rules using List.reverseRecOn with
  | nil => exact ⟨_, rfl, Array.size_replicate, fun n hn => by rw [Array.getElem?_replicate, if_pos hn]; rfl⟩
  | append_singleton rules rule ih =>
    obtain ⟨lists, made, size, each⟩ := ih fun rule hr => there rule (List.mem_append_left _ hr)
    have bound := there rule (List.mem_append_right _ List.mem_cons_self)
    refine ⟨lists.modify rule.result (· ++ [rules.length]), ?_, Array.size_modify.trans size, fun n hn => ?_⟩
    · rw [List.zipIdx_append, List.foldlM_append, made, Nat.zero_add, List.zipIdx_singleton]
      simp only [Option.bind_eq_bind, Option.bind_some, List.foldlM_cons, List.foldlM_nil]
      rw [modifyAt?_eq (size.symm ▸ bound)]
      rfl
    · rw [Array.getElem?_modify, each n hn, numbersOf_snoc]
      split
      · rfl
      · rw [List.append_nil]

/-- **The productions of each non-terminal are found.** -/
theorem exists_byResult? (wf : cfg.WellFormed) : ∃ byResult, cfg.byResult? = some byResult ∧
    ∀ n < cfg.nonTerminalCount, byResult[n]? = some (cfg.productionsOf n) := by
  obtain ⟨lists, made, -, each⟩ := exists_byResult fun rule hr => wf.result_lt rule (Array.mem_toList_iff.mp hr)
  refine ⟨lists, made, fun n hn => (each n hn).trans ?_⟩
  rw [numbersOf, productionsOf, Array.length_toList]
  refine congrArg some (List.filter_congr fun p _ => ?_)
  rw [Array.getElem?_toList]
  rfl

/-- The non-terminals on the right-hand sides are there. -/
theorem WellFormed.lt_of_nonTerminal_mem (wf : cfg.WellFormed) (h : .nonTerminal n ∈ cfg.symbolsOf p) :
    n < cfg.nonTerminalCount := by
  rw [symbolsOf] at h
  split at h
  · rename_i rule hr
    exact wf.nonTerminal_lt rule (Array.mem_of_getElem? hr) n h
  · cases List.mem_singleton.mp h
    exact wf.start_lt

theorem ask?_eq (list : byResult[n]? = some (cfg.productionsOf n)) (run : Expansion) (lookahead : TerminalSet) :
    ask? byResult run n lookahead = some (cfg.ask run n lookahead) := by
  rw [ask?, list, ask, Option.bind_eq_bind, Option.bind_some]
  split <;> rfl

section Closure
variable (wf : cfg.WellFormed) (fits : known.Fits cfg)
  (lists : ∀ n < cfg.nonTerminalCount, byResult[n]? = some (cfg.productionsOf n))
include wf fits lists

theorem visit?_eq (position : Nat) (run : Expansion) :
    cfg.visit? known byResult position run = some (cfg.visit known position run) := by
  rw [visit?, visit]
  cases run.items.item? position with
  | none => rfl
  | some item =>
    have symbols := (List.drop_suffix item.core.dot (cfg.symbolsOf item.core.production)).subset
    dsimp only [Option.bind_some]
    rw [request?]
    cases ahead : (cfg.symbolsOf item.core.production).drop item.core.dot with
    | nil => rfl
    | cons symbol rest =>
      rw [ahead] at symbols
      cases symbol with
      | terminal t => rfl
      | nonTerminal n =>
        have bound := wf.lt_of_nonTerminal_mem (symbols List.mem_cons_self)
        have words := firstOf?_eq fits fun m hm => wf.lt_of_nonTerminal_mem (symbols (List.mem_cons_of_mem _ hm))
        dsimp only
        rw [words, Option.bind_eq_bind, Option.bind_some]
        exact ask?_eq (lists n bound) run _

theorem closure?_eq (kernel : ItemSet) : cfg.closure? known byResult kernel = some (cfg.closure known kernel) := by
  rw [closure?, closure]
  generalize kernel.size + cfg.rules.size * (cfg.terminalCount + 1) = visits
  generalize Expansion.mk kernel (List.range kernel.size).reverse (Array.replicate cfg.nonTerminalCount none) = run
  induction visits generalizing run with
  | zero => rfl
  | succ visits ih =>
    rw [visitAll?, visitAll]
    cases run.stack with
    | nil => rfl
    | cons position stack =>
      dsimp only
      rw [visit?_eq wf fits lists]
      exact ih _

end Closure

/-! ## All states are found -/

section States
variable {mergeCores : Bool} (closes : ∀ kernel, cfg.closure? known byResult kernel = some (cfg.closure known kernel))
include closes

theorem absorb?_eq (target : Nat) (kernel : ItemSet) (collection : Collection) :
    collection.absorb? cfg known byResult target kernel = some (collection.absorb cfg known target kernel) := by
  rw [Collection.absorb?, Collection.absorb]
  split
  · rfl
  · dsimp only
    rw [closes]
    rfl

theorem follow?_eq (source : Nat) (collection : Collection) (transition : Symbol × ItemSet) :
    collection.follow? cfg known byResult mergeCores source transition =
      some (collection.follow cfg known mergeCores source transition) := by
  obtain ⟨symbol, kernel⟩ := transition
  rw [Collection.follow?, Collection.follow]
  dsimp only
  cases collection.keys.number? (.ofKernel mergeCores kernel) with
  | some target =>
    dsimp only
    rw [absorb?_eq closes]
    rfl
  | none =>
    dsimp only
    rw [Collection.push?, closes]
    rfl

theorem grow?_eq (visits : Nat) (collection : Collection) : collection.grow? cfg known byResult mergeCores visits =
    some (collection.grow cfg known mergeCores visits) := by
  induction visits generalizing collection with
  | zero => rfl
  | succ visits ih =>
    rw [Collection.grow?, Collection.grow]
    cases collection.queue with
    | nil => rfl
    | cons source queue =>
      dsimp only
      rw [foldlM_eq_some (fun _ => True) (fun collection _ transition _ =>
        ⟨follow?_eq closes _ collection transition, trivial⟩) trivial]
      exact ih _

end States

/-- **All states are found without a number that has no place.** -/
theorem collection?_eq (wf : cfg.WellFormed) (mergeCores : Bool) :
    cfg.collection? mergeCores = some (cfg.collection mergeCores) := by
  obtain ⟨byResult, made, lists⟩ := exists_byResult? wf
  have closes := closure?_eq wf (fits_firstSets wf) lists
  rw [collection?, firstSets?_eq wf, made]
  simp only [Option.bind_eq_bind, Option.bind_some, closes, grow?_eq closes]
  rfl

end Cfg
end TableParsing
