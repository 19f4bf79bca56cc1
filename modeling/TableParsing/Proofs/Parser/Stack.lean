import TableParsing.Parser.Run
import TableParsing.Proofs.Grammar.Tree
import TableParsing.Proofs.Lr.Collection
import TableParsing.Proofs.Table.Parser

/-! # Stacks are made of trees

The states on a stack are a path of transitions through the automaton, and each transition stands for a
derivation tree of its symbol, whose value lies on the stack (`Supported`).  **The items of the top state say
what lies below it**: in front of the dot stand the symbols of the topmost trees (`Supported.reveal`), so a
complete item is a production whose trees lie on top, one behind the other. -/

namespace TableParsing

variable {α : Type}

/-- Whether a stack is a path through the states, with a tree for each transition; the leaves are those of all
trees. -/
inductive Supported (grammar : Grammar α) (states : List Collection.State) :
    List (Entry α) → List (Token α) → Prop
  | bottom : Supported grammar states [] []
  | push {stack leaves} {symbol : Symbol} {state : Collection.State} {next : Nat}
      (h : Supported grammar states stack leaves) (tree : grammar.Tree symbol)
      (top : states[topState stack]? = some state) (leads : state.transitions.lookup symbol = some next) :
      Supported grammar states (⟨next, tree.value⟩ :: stack) (leaves ++ tree.yield)

namespace Supported
variable {grammar : Grammar α} {states : List Collection.State} {stack kept popped : List (Entry α)}
  {leaves : List (Token α)} {state : Collection.State} {p dot : Nat}

/-- What remains of a stack is supported by what remains of the leaves. -/
theorem of_append (h : Supported grammar states (popped ++ kept) leaves) : ∃ front back,
    leaves = front ++ back ∧ Supported grammar states kept front := by
  induction popped generalizing leaves with
  | nil => exact ⟨leaves, [], (List.append_nil _).symm, h⟩
  | cons entry popped ih =>
    cases h with
    | push h tree top leads =>
      obtain ⟨front, back, rfl, kept⟩ := ih h
      exact ⟨front, back ++ tree.yield, List.append_assoc .., kept⟩

section Automaton
variable (automaton : grammar.cfg.IsAutomaton states)
include automaton

/-- A production that has begun in the kernel is the added one, at the bottom of the stack. -/
theorem eq_bottom (h : Supported grammar states stack leaves) (top : states[topState stack]? = some state)
    (hc : state.kernel.Has ⟨p, 0⟩) : p = grammar.cfg.augmented ∧ stack = [] ∧ leaves = [] := by
  cases h with
  | bottom =>
    obtain ⟨start, hs, cores, -⟩ := automaton.start
    cases hs.symm.trans top
    exact ⟨congrArg Core.production ((cores _).mp hc), rfl, rfl⟩
  | push h tree below leads =>
    obtain ⟨next, hn, cores⟩ := automaton.advances _ _ below _ _ leads
    cases hn.symm.trans top
    obtain ⟨old, -, -, hadvance⟩ := cores _ hc
    cases congrArg Core.dot hadvance

/-- **Below an item that has moved on there is the item from before**, and the transition between them is on the
symbol that it has moved over. -/
theorem advanced (h : Supported grammar states stack leaves) (top : states[topState stack]? = some state)
    (hc : state.items.Has ⟨p, dot + 1⟩) :
    ∃ (symbol : Symbol) (tree : grammar.Tree symbol) (next : Nat) (rest : List (Entry α))
      (front : List (Token α)) (below : Collection.State),
      stack = ⟨next, tree.value⟩ :: rest ∧ leaves = front ++ tree.yield ∧
      Supported grammar states rest front ∧ states[topState rest]? = some below ∧
      below.transitions.lookup symbol = some next ∧
      (grammar.cfg.symbolsOf p)[dot]? = some symbol ∧ below.items.Has ⟨p, dot⟩ := by
  -- a closure adds beginnings only, so an item that has moved on comes from the kernel
  have kernel : state.kernel.Has ⟨p, dot + 1⟩ := by
    cases (automaton.sound _ _ top).isClosure.reached _ hc with
    | kernel h => exact h
  cases h with
  | bottom =>
    obtain ⟨start, hs, cores, -⟩ := automaton.start
    cases hs.symm.trans top
    cases congrArg Core.dot ((cores _).mp kernel)
  | push h tree below leads =>
    obtain ⟨next', hn, cores⟩ := automaton.advances _ _ below _ _ leads
    cases hn.symm.trans top
    obtain ⟨⟨q, e⟩, hold, symbol_eq, hadvance⟩ := cores _ kernel
    obtain ⟨rfl, rfl⟩ : q = p ∧ e = dot := by
      have := congrArg Core.production hadvance
      have := congrArg Core.dot hadvance
      simp only [Core.advance] at *
      omega
    exact ⟨_, tree, _, _, _, _, rfl, rfl, h, below, leads, symbol_eq, hold⟩

/-- **In front of the dot stand the symbols of the topmost trees.** -/
theorem reveal (h : Supported grammar states stack leaves) (top : states[topState stack]? = some state)
    (hc : state.items.Has ⟨p, dot⟩) :
    ∃ word, ∃ forest : grammar.Forest word, ∃ front under,
      word = (grammar.cfg.symbolsOf p).take dot ∧
      leaves = front ++ forest.yield ∧
      ((stack.take dot).map (·.value)).reverse = forest.values ∧
      Supported grammar states (stack.drop dot) front ∧
      states[topState (stack.drop dot)]? = some under ∧ under.items.Has ⟨p, 0⟩ := by
  -- on the dot: each symbol in front of it is the topmost transition of what is left
  induction dot generalizing stack leaves state with
  | zero => exact ⟨[], .nil, leaves, state, rfl, (List.append_nil _).symm, rfl, h, top, hc⟩
  | succ dot ih =>
    obtain ⟨symbol, tree, next, rest, front, below, rfl, rfl, h, there, -, hsymbol, hold⟩ :=
      h.advanced automaton top hc
    obtain ⟨word, forest, front, under, hword, rfl, values, supported, hunder, hbegin⟩ := ih h there hold
    refine ⟨_, forest.snoc tree, front, under, ?_, ?_, ?_, supported, hunder, hbegin⟩
    · rw [List.take_add_one, hword, hsymbol]
      rfl
    · rw [Grammar.Forest.yield_snoc, List.append_assoc]
    · rw [Grammar.Forest.values_snoc, ← values, List.take_succ_cons, List.map_cons, List.reverse_cons]

/-- Behind a production that has begun in a state there is a transition on its result. -/
theorem exists_transition {production : Production α} (h : Supported grammar states stack leaves)
    (top : states[topState stack]? = some state) (hp : grammar.productions[p]? = some production)
    (hc : state.items.Has ⟨p, 0⟩) :
    ∃ next, state.transitions.lookup (.nonTerminal production.result) = some next := by
  -- the production was asked for by an item of the state, and that one leads on
  cases (automaton.sound _ _ top).isClosure.reached _ hc with
  | kernel hk =>
    have augmented := (h.eq_bottom automaton top hk).1
    have := (Array.getElem?_eq_some_iff.mp (Grammar.getElem?_rules hp)).1
    exact absurd augmented (Nat.ne_of_lt this)
  | expand hr next hq =>
    have result := Cfg.mem_productionsOf.mp hq
    rw [Grammar.resultOf?_eq hp] at result
    cases result
    have sound := automaton.sound _ _ top
    obtain ⟨item, hm, rfl⟩ := state.items.has_iff.mp (sound.isClosure.has_iff.mpr hr)
    obtain ⟨target, _, ht, -⟩ := automaton.leads _ _ top item hm _ next
    exact ⟨target, ht⟩

/-- **A complete production can be reduced.**  Its trees lie on top of the stack, and the state below them
leads on behind its result. -/
theorem reduce {production : Production α} (h : Supported grammar states stack leaves)
    (top : states[topState stack]? = some state) (hp : grammar.productions[p]? = some production)
    (hc : state.items.Has ⟨p, production.symbols.length⟩) (error : SyntaxError) :
    ∃ next under, states[topState (stack.drop production.symbols.length)]? = some under ∧
      under.transitions.lookup (.nonTerminal production.result) = some next ∧
      Supported grammar states
        (⟨next, production.action.apply error
          ((stack.take production.symbols.length).map (·.value)).reverse⟩ ::
            stack.drop production.symbols.length) leaves := by
  obtain ⟨word, forest, front, under, hword, rfl, values, supported, hunder, hbegin⟩ :=
    h.reveal automaton top hc
  rw [Grammar.symbolsOf_eq hp, List.take_length] at hword
  subst hword
  obtain ⟨next, leads⟩ := supported.exists_transition automaton hunder hp hbegin
  refine ⟨next, under, hunder, leads, ?_⟩
  rw [values]
  exact supported.push (.node p production hp error forest) hunder leads

/-- **What is accepted is one tree of the start symbol.** -/
theorem accept (h : Supported grammar states stack leaves) (top : states[topState stack]? = some state)
    (hc : state.items.Has ⟨grammar.cfg.augmented, 1⟩) :
    ∃ tree : grammar.Tree (.nonTerminal grammar.start), tree.yield = leaves ∧
      stack.map (·.value) = [tree.value] := by
  obtain ⟨word, forest, front, under, hword, rfl, values, supported, hunder, hbegin⟩ :=
    h.reveal automaton top hc
  have kernel : under.kernel.Has ⟨grammar.cfg.augmented, 0⟩ := by
    cases (automaton.sound _ _ hunder).isClosure.reached _ hbegin with
    | kernel h => exact h
    | expand _ _ hp => exact absurd (Cfg.lt_of_mem_productionsOf hp) (Nat.lt_irrefl _)
  obtain ⟨-, hdrop, rfl⟩ := supported.eq_bottom automaton hunder kernel
  rw [Cfg.symbolsOf_augmented] at hword
  have hword : word = [.nonTerminal grammar.start] := hword
  subst hword
  cases forest with
  | cons tree rest =>
    cases rest
    refine ⟨tree, ?_, ?_⟩
    · rw [List.nil_append, Grammar.Forest.yield, Grammar.Forest.yield, List.append_nil]
    · cases stack with
      | nil => cases values
      | cons entry stack =>
        obtain rfl : stack = [] := hdrop
        exact values

end Automaton

end Supported
end TableParsing
