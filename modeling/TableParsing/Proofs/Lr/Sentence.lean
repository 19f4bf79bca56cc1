import TableParsing.Proofs.Lr.Foresight
import TableParsing.Proofs.Table.Parser

/-! # Beginnings of sentences

The tokens in front of a place in a sentence are the leaves of trees whose symbols are a viable word
(`Tree.leadsTo`): cut at the place, the tree of the sentence falls into the trees that are complete there, and a path
of productions that have begun.  The other way round, where each non-terminal derives something, **what is missing
behind a viable word can be supplied**, so that the leaves begin a sentence (`Spanned.beginsSentence`). -/

namespace TableParsing

variable {α : Type}

namespace Grammar
variable {grammar : Grammar α}

/-- Whether tokens derive from the start symbol. -/
def IsSentence (grammar : Grammar α) (tokens : List (Token α)) : Prop :=
  ∃ tree : grammar.Tree (.nonTerminal grammar.start), tree.yield = tokens

/-- Whether some sentence starts with the tokens. -/
def BeginsSentence (grammar : Grammar α) (tokens : List (Token α)) : Prop :=
  ∃ rest, grammar.IsSentence (tokens ++ rest)

/-- Whether each non-terminal derives some tokens. -/
def IsProductive (grammar : Grammar α) : Prop :=
  ∀ n < grammar.nonTerminals.length, Nonempty (grammar.Tree (.nonTerminal n))

/-- Whether no production mentions the end of the input. -/
def NeverMentionsEnd (grammar : Grammar α) : Prop :=
  ∀ production ∈ grammar.productions, .terminal endTerminal ∉ production.symbols

instance (grammar : Grammar α) : Decidable grammar.NeverMentionsEnd :=
  inferInstanceAs (Decidable (∀ production ∈ grammar.productions, .terminal endTerminal ∉ production.symbols))

/-- Whether tokens are the leaves of trees for the symbols of a word, the latest symbol first. -/
inductive Spanned (grammar : Grammar α) : List Symbol → List (Token α) → Prop
  | nil : Spanned grammar [] []
  | push {word : List Symbol} {leaves : List (Token α)} {symbol : Symbol} (h : Spanned grammar word leaves)
      (tree : grammar.Tree symbol) : Spanned grammar (symbol :: word) (leaves ++ tree.yield)

/-- Whether the dot comes to stand in front of a token, behind trees whose leaves are the tokens in front of it. -/
def LeadsTo (grammar : Grammar α) (tokens : List (Token α)) (next : Token α) : Prop :=
  ∃ word core, grammar.Spanned word tokens ∧ grammar.cfg.Viable word core ∧
    grammar.cfg.nextSymbol? core = some (.terminal next.terminal)

/-- Whether the tokens in front of each token lead to it. -/
def Fits (grammar : Grammar α) (tokens : List (Token α)) : Prop :=
  ∀ front next back, tokens = front ++ next :: back → grammar.LeadsTo front next

/-! ## Cutting trees -/

mutual

/-- The tokens in front of a token of a tree lead to it. -/
theorem Tree.leadsTo {symbol : Symbol} (tree : grammar.Tree symbol) {word : List Symbol} {core : Core}
    {leaves front rest : List (Token α)} {next : Token α} (spanned : grammar.Spanned word leaves)
    (viable : grammar.cfg.Viable word core) (hnext : grammar.cfg.nextSymbol? core = some symbol)
    (cut : tree.yield = front ++ next :: rest) : grammar.LeadsTo (leaves ++ front) next := by
  match tree with
  | .leaf token =>
    rw [Tree.yield] at cut
    obtain ⟨rfl, hcut⟩ : front = [] ∧ [token] = next :: rest := by
      cases front with
      | nil => exact ⟨rfl, cut⟩
      | cons first front => cases front <;> cases cut
    cases hcut
    exact ⟨word, core, (List.append_nil leaves).symm ▸ spanned, viable, hnext⟩
  | .node p production there _ children =>
    have hp := getElem?_rules there
    exact children.leadsTo spanned (viable.expand hnext (Cfg.mem_productionsOf_result hp)) (Cfg.ahead_zero hp) cut

/-- The tokens in front of a token of the trees that stand behind the dot lead to it. -/
theorem Forest.leadsTo {symbols : List Symbol} (forest : grammar.Forest symbols) {word : List Symbol} {core : Core}
    {leaves front rest : List (Token α)} {next : Token α} (spanned : grammar.Spanned word leaves)
    (viable : grammar.cfg.Viable word core) (hahead : grammar.cfg.ahead core = symbols)
    (cut : forest.yield = front ++ next :: rest) : grammar.LeadsTo (leaves ++ front) next := by
  match forest with
  | .nil => cases front <;> cases cut
  | .cons tree others =>
    obtain ⟨hnext, hbehind⟩ := Cfg.next_of_ahead hahead
    rw [Forest.yield] at cut
    rcases List.append_eq_append_iff.mp cut with ⟨front', rfl, hothers⟩ | ⟨tail, htree, htail⟩
    -- the token belongs to the trees behind the first one
    · rw [← List.append_assoc]
      exact others.leadsTo (spanned.push tree) (viable.advance hnext) (Cfg.ahead_advance.trans hbehind) hothers
    · cases tail with
      | nil =>
        rw [List.append_nil] at htree
        rw [← htree, ← List.append_nil (leaves ++ _)]
        exact others.leadsTo (spanned.push tree) (viable.advance hnext) (Cfg.ahead_advance.trans hbehind) htail.symm
      | cons first tail =>
        cases htail
        exact tree.leadsTo spanned viable hnext htree

end

variable {word symbols : List Symbol} {leaves front rest : List (Token α)} {core : Core} {next : Token α}

theorem nextSymbol?_start : grammar.cfg.nextSymbol? ⟨grammar.cfg.augmented, 0⟩ = some (.nonTerminal grammar.start) := by
  rw [Cfg.nextSymbol?, Cfg.symbolsOf_augmented]
  rfl

/-- **Within a sentence the tokens in front of each token lead to it.** -/
theorem IsSentence.leadsTo (h : grammar.IsSentence (front ++ next :: rest)) : grammar.LeadsTo front next := by
  obtain ⟨tree, hyield⟩ := h
  exact tree.leadsTo .nil .start nextSymbol?_start hyield

/-- The tokens that begin a sentence fit. -/
theorem BeginsSentence.fits {tokens : List (Token α)} (h : grammar.BeginsSentence tokens) : grammar.Fits tokens := by
  rintro front next back rfl
  obtain ⟨rest, sentence⟩ := h
  rw [List.append_assoc, List.cons_append] at sentence
  exact sentence.leadsTo

theorem Fits.nil : grammar.Fits [] := by
  intro front next back h
  cases front <;> cases h

/-- Behind tokens that fit there fits what they lead to. -/
theorem Fits.snoc {tokens : List (Token α)} (h : grammar.Fits tokens) (leads : grammar.LeadsTo tokens next) :
    grammar.Fits (tokens ++ [next]) := by
  intro front other back cut
  rcases List.append_eq_append_iff.mp cut with ⟨between, hfront, hback⟩ | ⟨between, htokens, hback⟩
  · cases between with
    | nil =>
      cases hback
      rwa [hfront, List.append_nil]
    | cons first between => cases between <;> cases hback
  · cases between with
    | nil =>
      cases hback
      rwa [← List.append_nil front, ← htokens]
    | cons first between =>
      cases hback
      exact h front other between htokens

/-! ## Supplying trees -/

section Productive
variable [Inhabited α] (productive : grammar.IsProductive)
include productive

theorem IsProductive.exists_forest (there : ∀ n, .nonTerminal n ∈ symbols → n < grammar.nonTerminals.length) :
    Nonempty (grammar.Forest symbols) := by
  induction symbols with
  | nil => exact ⟨.nil⟩
  | cons symbol symbols ih =>
    obtain ⟨rest⟩ := ih fun n hn => there n (List.mem_cons_of_mem _ hn)
    cases symbol with
    | terminal t => exact ⟨.cons (.leaf ⟨t, "", ⟨0, 0⟩, default⟩) rest⟩
    | nonTerminal n =>
      obtain ⟨tree⟩ := productive n (there n List.mem_cons_self)
      exact ⟨.cons tree rest⟩

theorem IsProductive.exists_ahead (wf : grammar.cfg.WellFormed) (core : Core) :
    Nonempty (grammar.Forest (grammar.cfg.ahead core)) := by
  refine productive.exists_forest fun n hn => ?_
  have mem : .nonTerminal n ∈ grammar.cfg.symbolsOf core.production := List.mem_of_mem_drop hn
  rw [Cfg.symbolsOf] at mem
  split at mem
  · rename_i rule hr
    exact wf.nonTerminal_lt rule (Array.mem_of_getElem? hr) n mem
  · cases List.mem_singleton.mp mem
    exact wf.start_lt

/-- With trees for what stands behind the dot, the leaves of a viable word begin a sentence. -/
theorem Spanned.beginsSentence_append (wf : grammar.cfg.WellFormed) (viable : grammar.cfg.Viable word core)
    (spanned : grammar.Spanned word leaves) (forest : grammar.Forest symbols)
    (hahead : grammar.cfg.ahead core = symbols) : grammar.BeginsSentence (leaves ++ forest.yield) := by
  induction viable generalizing leaves symbols with
  | start =>
    rw [Cfg.ahead, Cfg.symbolsOf_augmented] at hahead
    have hahead : [.nonTerminal grammar.start] = symbols := hahead
    subst hahead
    cases spanned
    cases forest with
    | cons tree forest =>
      cases forest
      refine ⟨[], tree, ?_⟩
      rw [Forest.yield, Forest.yield, List.append_nil, List.append_nil, List.nil_append]
  | @expand word core n p h next hp ih =>
    obtain ⟨rule, hr, rfl⟩ := Cfg.resultOf?_eq_some_iff.mp (Cfg.mem_productionsOf.mp hp)
    obtain ⟨production, there⟩ := exists_production_of_resultOf? (p := p)
      (by rw [Cfg.mem_productionsOf.mp hp]; rfl)
    cases hr.symm.trans (getElem?_rules there)
    rw [Cfg.ahead_zero hr] at hahead
    have hahead : production.symbols = symbols := hahead
    subst hahead
    -- the production becomes a tree, and behind it there are trees to be had
    obtain ⟨behind⟩ := productive.exists_ahead wf core.advance
    obtain ⟨rest, sentence⟩ := ih spanned (.cons (.node p production there default forest) behind)
      (Cfg.ahead_of_next next)
    rw [Forest.yield, Tree.yield, ← List.append_assoc, List.append_assoc] at sentence
    exact ⟨_, sentence⟩
  | advance h next ih =>
    cases spanned with
    | push spanned tree =>
      subst hahead
      obtain ⟨rest, sentence⟩ := ih spanned (.cons tree forest) (Cfg.ahead_of_next next)
      rw [Forest.yield, ← List.append_assoc] at sentence
      exact ⟨rest, sentence⟩

/-- **What a viable word lacks can be supplied**: its leaves begin a sentence. -/
theorem Spanned.beginsSentence (wf : grammar.cfg.WellFormed) (viable : grammar.cfg.Viable word core)
    (spanned : grammar.Spanned word leaves) : grammar.BeginsSentence leaves := by
  obtain ⟨forest⟩ := productive.exists_ahead wf core
  obtain ⟨rest, sentence⟩ := spanned.beginsSentence_append productive wf viable forest rfl
  exact ⟨forest.yield ++ rest, List.append_assoc leaves _ _ ▸ sentence⟩

/-- **Tokens that lead to a token begin a sentence together with it.** -/
theorem LeadsTo.beginsSentence (wf : grammar.cfg.WellFormed) (h : grammar.LeadsTo front next) :
    grammar.BeginsSentence (front ++ [next]) := by
  obtain ⟨word, core, spanned, viable, hnext⟩ := h
  exact (spanned.push (.leaf next)).beginsSentence productive wf (viable.advance hnext)

end Productive

/-- No token leads to the end of the input, if no production mentions it. -/
theorem NeverMentionsEnd.not_leadsTo (noEnd : grammar.NeverMentionsEnd) (atEnd : next.terminal = endTerminal) :
    ¬grammar.LeadsTo front next := by
  rintro ⟨word, core, -, -, hnext⟩
  rw [atEnd] at hnext
  have mem := List.mem_of_getElem? hnext
  rw [Cfg.symbolsOf] at mem
  split at mem
  · rename_i rule hr
    obtain ⟨production, hp, rfl⟩ := mem_rules_cfg.mp (Array.mem_of_getElem? hr)
    exact noEnd production hp mem
  · cases List.mem_singleton.mp mem

/-- What tokens lead to is a terminal of the grammar. -/
theorem LeadsTo.lt (wf : grammar.cfg.WellFormed) (h : grammar.LeadsTo front next) :
    next.terminal < grammar.terminals.length := by
  obtain ⟨word, core, -, -, hnext⟩ := h
  exact wf.lt_of_mem_symbolsOf (List.mem_of_getElem? hnext)

end Grammar
end TableParsing
