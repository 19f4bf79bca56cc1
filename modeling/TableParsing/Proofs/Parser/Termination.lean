import TableParsing.Proofs.Parser.Canonical
import TableParsing.Proofs.Table.Chart

/-! # Parses come to an end

A run reduces, takes tokens and recovers.  **No part of this goes on forever** (`Machine.Reaches.acc`):

* A token is left behind for good, and the end of the input is not taken if no production mentions it.
* Between two tokens a recovery begins at most once, and its error token is taken at most once.
* Reductions in front of one token come to an end (`Cfg.halts`), if no silent reduction has to compete with a shift.

So a parse whose tokens end comes to a result (`exists_result`).  Precedence makes the third point a condition: it
settles conflicts, and may do so in favour of a silent production that is reduced over and over again. -/

namespace TableParsing

open Collection (State)

variable {α : Type}

namespace Grammar
variable {grammar : Grammar α} {mergeCores : Bool} {t : Nat}

/-- Whether no state asks for the reduction of a silent production in front of a terminal that it shifts, so that
precedence has no conflict of such a production to settle. -/
def SparesSilent (grammar : Grammar α) (mergeCores : Bool) : Prop :=
  ∀ state ∈ grammar.cfg.collection mergeCores, ∀ (p : Nat) (rule : Rule) (t target : Nat),
    grammar.cfg.rules[p]? = some rule → rule.IsSilent → (t, .reduce p) ∈ grammar.cfg.demands state →
      (t, .shift target) ∉ grammar.cfg.demands state

/-- Where there is no shift, a cell is filled only if all reductions are one. -/
theorem SparesSilent.undisputed {table : ParserTable} (spares : grammar.SparesSilent mergeCores)
    (wf : grammar.cfg.WellFormed) (built : grammar.table mergeCores = .ok table)
    (known : t < grammar.terminals.length) : grammar.cfg.Undisputed (grammar.cfg.collection mergeCores) t := by
  have automaton := Cfg.isAutomaton_collection wf mergeCores
  intro state hm p rule hp silent reduce d hd
  obtain ⟨i, hs⟩ := List.mem_iff_getElem?.mp hm
  have noShift := spares state hm p rule t
  obtain ⟨cell, filled, -⟩ := get_eq_actionOf built hs (automaton.sound i state hs).nodup known
  have unled : state.transitions.lookup (.terminal t) = none :=
    Option.eq_none_iff_forall_ne_some.mpr fun target leads =>
      noShift target hp silent reduce (Cfg.shift_mem_of_lookup leads)
  have competes : Demand.reduce p ∈ grammar.cfg.competing state t := Cfg.mem_competing_iff.mpr ⟨reduce, nofun⟩
  have other : d ∈ grammar.cfg.competing state t := Cfg.mem_competing_iff.mpr ⟨hd, fun target shift =>
    noShift target hp silent reduce (shift ▸ hd)⟩
  rw [cellAt, unled, cellOf_none, meetAll_empty_eq_ok_iff Cfg.shift_not_mem_competing] at filled
  rcases filled with ⟨none, -⟩ | ⟨first, -, -, same⟩
  · rw [none] at competes
    cases competes
  · rw [same d other, same _ competes]

/-- Precedence has settled what a reduction beside a shift comes to. -/
theorem exists_settle?_of_meetAll {i p target : Nat} {cell : Cell} {ds : List Demand}
    (noShift : ∀ next, .shift next ∉ ds) (filled : grammar.meetAll i t (.demand (.shift target)) ds = .ok cell)
    (hd : .reduce p ∈ ds) : ∃ settled, grammar.settle? t target p = some settled := by
  have gives {d : Demand} (way : grammar.GivesWay t target d) (same : d = .reduce p) :
      ∃ settled, grammar.settle? t target p = some settled := by
    obtain ⟨h⟩ := way
    cases same
    exact ⟨_, h⟩
  rcases (meetAll_shift_eq_ok_iff noShift).mp filled with ⟨-, ways⟩ | ⟨front, back, d, rfl, ways, prevails, same⟩
  · exact gives (ways _ hd) rfl
  · rcases List.mem_append.mp hd with hfront | hback
    · exact gives (ways _ hfront) rfl
    · have here : .reduce p = d := (List.mem_cons.mp hback).elim id (same _)
      subst here
      obtain ⟨h, -⟩ := prevails
      exact ⟨_, h⟩

/-- Precedence has no conflict of a silent production to settle if none of them is lent any. -/
theorem sparesSilent_of_unlent {table : ParserTable} (wf : grammar.cfg.WellFormed)
    (built : grammar.table mergeCores = .ok table)
    (unlent : ∀ production ∈ grammar.productions, (∀ t, .terminal t ∉ production.symbols) →
      production.precedence = none) : grammar.SparesSilent mergeCores := by
  have automaton := Cfg.isAutomaton_collection wf mergeCores
  intro state hm p rule t target hp silent reduce shift
  obtain ⟨i, hs⟩ := List.mem_iff_getElem?.mp hm
  have sound := automaton.sound i state hs
  have leads := lookup_eq_some_of_mem sound.nodup (Cfg.shift_mem_demands.mp shift)
  obtain ⟨cell, filled, -⟩ := get_eq_actionOf built hs sound.nodup (automaton.lt_of_lookup wf hs leads)
  have competes : Demand.reduce p ∈ grammar.cfg.competing state t := Cfg.mem_competing_iff.mpr ⟨reduce, nofun⟩
  rw [cellAt, leads, cellOf_some] at filled
  obtain ⟨settled, h⟩ := exists_settle?_of_meetAll Cfg.shift_not_mem_competing filled competes
  obtain ⟨_, _, production, _, -, -, there, lent, -⟩ := settle?_eq_some_iff.mp h
  cases hp.symm.trans (getElem?_rules there)
  cases (unlent production (List.mem_of_getElem? there) silent).symm.trans lent

end Grammar

/-! ## Steps that are not reductions -/

namespace Configuration

/-- How far a recovery has come: it may begin, its error token is to be taken, or that has been taken. -/
def phase (c : Configuration α) : Nat := if c.deferred.isSome then 1 else if c.recovering then 0 else 2

/-- What is left to be done besides reductions, if no token with a greater number than `n` is read. -/
def left (n : Nat) (c : Configuration α) : Nat := 3 * (n + 1 - c.read) + c.phase

end Configuration

variable [Inhabited α]

namespace Machine
variable {machine : Machine α} {source : TokenStream α} {c c' : Configuration α} {n : Nat}

theorem known_of_running (h : (machine.step source c).value = .running c') :
    c.lookahead.terminal < machine.table.actions.terminalCount := by
  by_contra unknown
  rw [step, if_pos (Nat.le_of_not_lt unknown)] at h
  cases h

/-- There is nothing to leave out behind the end of the input. -/
theorem ne_end_of_discard (action : machine.action (topState c.stack) c.lookahead.terminal = .error)
    (deferred : c.deferred = none) (recovering : c.recovering = true)
    (running : (machine.step source c).value = .running c') : c.lookahead.terminal ≠ endTerminal := by
  intro atEnd
  rw [step_eq (known_of_running running), action] at running
  simp only [reject, deferred, recovering, discard, atEnd, if_true, Option.isSome_none, Bool.false_eq_true,
    if_false] at running
  cases running

section Grammar
variable {grammar : Grammar α} {states : List State} (wf : grammar.cfg.WellFormed)
  (automaton : grammar.cfg.IsAutomaton states) (drives : machine.Drives grammar states)
  (noEnd : grammar.NeverMentionsEnd)
include wf automaton drives noEnd

/-- A token that is left behind is not the end of the input. -/
theorem Reaches.ne_end_of_read (reaches : machine.Reaches source c)
    (running : (machine.step source c).value = .running c') (reads : c.read < c'.read) :
    (source (c.read - 1)).value = .ok c.lookahead ∧ c.lookahead.terminal ≠ endTerminal := by
  obtain ⟨tokens, leaves, explains⟩ := Explains.of_reaches wf automaton drives reaches
  have current (deferred : c.deferred = none) : (source (c.read - 1)).value = .ok c.lookahead := by
    have begins := explains.begins
    rw [Configuration.upcoming, deferred] at begins
    rw [explains.read_eq, Nat.add_sub_cancel]
    exact begins.value_length
  cases step_of_running running with
  | shift action deferred =>
    exact ⟨current deferred, fun atEnd =>
      noEnd.not_leadsTo atEnd (drives.leadsTo_of_shift automaton explains.supported action)⟩
  | discard action deferred recovering =>
    exact ⟨current deferred, ne_end_of_discard action deferred recovering running⟩
  | shiftError | reduce | recover => exact absurd reads (Nat.lt_irrefl _)

variable (last : ∀ token, (source n).value = .ok token → token.terminal = endTerminal)
include last

/-- So no token behind the end of the input is read. -/
theorem Reaches.read_le (reaches : machine.Reaches source c) : c.read ≤ n + 1 := by
  induction reaches with
  | start => exact Nat.le_add_left 1 n
  | @step c c' reaches running ih =>
    by_cases reads : c.read < c'.read
    · obtain ⟨read, notEnd⟩ := reaches.ne_end_of_read wf automaton drives noEnd running reads
      have before : c.read - 1 ≠ n := fun same => notEnd (last _ (same ▸ read))
      have next : c'.read ≤ c.read + 1 := by
        cases step_of_running running with
        | shift | discard => exact Nat.le_refl _
        | shiftError | reduce | recover => exact Nat.le_succ _
      omega
    · exact Nat.le_trans (Nat.le_of_not_lt reads) ih

/-- **Every step leaves less to be done, except for reductions.** -/
theorem Reaches.left_lt (reaches : machine.Reaches source c) (running : (machine.step source c).value = .running c')
    (turned : ∀ number, machine.action (topState c.stack) c.lookahead.terminal ≠ .reduce number) :
    c'.left n < c.left n := by
  have bound := (reaches.step running).read_le wf automaton drives noEnd last
  cases step_of_running running with
  | @shift next token action deferred read =>
    have phase : Configuration.phase { c with
        stack := ⟨next, c.lookahead.value⟩ :: c.stack
        lookahead := token
        recovering := false
        read := c.read + 1 } ≤ 2 := by
      simp only [Configuration.phase]
      split
      · omega
      · simp
    simp only [Configuration.left] at bound ⊢
    omega
  | shiftError action deferred => simp [Configuration.left, Configuration.phase, deferred]
  | reduce reduce => exact absurd reduce (turned _)
  | discard action deferred recovering read =>
    simp only [Configuration.left, Configuration.phase, deferred, recovering] at bound ⊢
    omega
  | recover action deferred recovering unwound =>
    simp [Configuration.left, Configuration.phase, deferred, recovering]

end Grammar

/-! ## Runs -/

section Grammar
variable {grammar : Grammar α} {states : List State}

/-- **No run goes on forever**, if no word is reduced forever in front of a terminal. -/
theorem Reaches.acc (wf : grammar.cfg.WellFormed) (automaton : grammar.cfg.IsAutomaton states)
    (drives : machine.Drives grammar states) (heeds : machine.Heeds grammar states) (noEnd : grammar.NeverMentionsEnd)
    (halts : ∀ t < machine.table.actions.terminalCount, ∀ word, grammar.cfg.Halts states t word)
    (ends : source.Ends) (reaches : machine.Reaches source c) :
    Acc (fun c' c => (machine.step source c).value = .running c') c := by
  obtain ⟨n, last⟩ := ends
  induction hleft : c.left n using Nat.strong_induction_on generalizing c with
  | _ m lower =>
    by_cases known : c.lookahead.terminal < machine.table.actions.terminalCount
    swap
    · exact .intro c fun c' running => absurd (known_of_running running) known
    obtain ⟨leaves, supported⟩ := reaches.exists_supported grammar wf automaton drives
    obtain ⟨word, along, -⟩ := supported.exists_word
    have halts := halts _ known word
    -- in front of the lookahead there are finitely many reductions, and any other step leaves less to be done
    generalize ht : c.lookahead.terminal = t at halts
    induction halts generalizing c with
    | intro word _ ih =>
      refine .intro c fun c' running => ?_
      by_cases reduced : ∃ number, machine.action (topState c.stack) c.lookahead.terminal = .reduce number
      · obtain ⟨number, action⟩ := reduced
        obtain ⟨stack, word', running', supported', along', step⟩ :=
          heeds.exists_reduction source wf automaton drives supported along known action
        cases running.symm.trans running'
        exact ih word' (ht ▸ step) (reaches.step running) hleft known supported' along' ht
      · have lt := reaches.left_lt wf automaton drives noEnd last running fun number action => reduced ⟨number, action⟩
        exact lower _ (hleft ▸ lt) (reaches.step running) rfl

end Grammar

/-- A run that does not go on forever is finished. -/
theorem exists_finish_of_acc (h : Acc (fun c' c => (machine.step source c).value = .running c') c) :
    ∃ n last result, machine.Runs source n c last ∧ (machine.step source last).value = .finished result := by
  induction h with
  | intro c _ ih =>
    cases progress : (machine.step source c).value with
    | finished result => exact ⟨0, c, result, .refl c, progress⟩
    | running c' =>
      obtain ⟨n, last, result, runs, finish⟩ := ih c' progress
      exact ⟨n + 1, last, result, .step progress runs, finish⟩

theorem exists_yields_of_acc (acc : ∀ token, (source 0).value = .ok token →
      Acc (fun c' c => (machine.step source c).value = .running c') ⟨[], token, none, none, false, 0, 1⟩) :
    ∃ result, machine.Yields source result := by
  cases read : (source 0).value with
  | error e =>
    refine ⟨.error (.lexer e), 0, fun limit _ => ?_⟩
    rw [value_parse, read]
  | ok first =>
    obtain ⟨n, last, result, runs, finish⟩ := exists_finish_of_acc (acc first read)
    exact ⟨result, runs.yields read finish⟩

/-- A run that keeps to what it cannot leave has no result. -/
theorem parse_eq_none (Q : Configuration α → Prop) {first : Token α} (read : (source 0).value = .ok first)
    (start : Q (.clean [] first 1))
    (keeps : ∀ c, Q c → ∃ c', (machine.step source c).value = .running c' ∧ Q c') (limit : Nat) :
    (machine.parse source limit).value = none := by
  have never {c : Configuration α} (h : Q c) (limit : Nat) (events : Array Event) :
      (machine.run source limit c events).1 = none := by
    induction limit generalizing c events with
    | zero => rfl
    | succ limit ih =>
      obtain ⟨c', running, h⟩ := keeps c h
      rw [run]
      simp only [running]
      exact ih h _
  rw [value_parse, read]
  exact never start limit _

end Machine

/-! ## Runs that go on forever -/

/-- The grammar of the text a behind any number of ends of the input. -/
def endless : Grammar Unit where
  terminals := [⟨"$end", .reserved, none⟩, ⟨"error", .reserved, none⟩, ⟨"a", .literal "a", none⟩]
  nonTerminals := ["s"]
  productions := [⟨0, [.terminal 0, .nonTerminal 0], .ofValues fun _ => (), none⟩,
    ⟨0, [.terminal 2], .ofValues fun _ => (), none⟩]
  start := 0
  ignored := []
  lexerOptions := {}

namespace endless

theorem declared : endless.Declared :=
  ⟨_, .start (.production (.production (.nonTerminal .empty "s") 0 [.terminal 0, .nonTerminal 0]
    (.ofValues fun _ => ())) 0 [.literal "a"] (.ofValues fun _ => ())) 0, rfl⟩

theorem hasNoPrecedence : endless.HasNoPrecedence := by decide

/-- The grammar without names and actions. -/
def cfg : Cfg where
  terminalCount := 3
  nonTerminalCount := 1
  rules := #[⟨0, [.terminal 0, .nonTerminal 0]⟩, ⟨0, [.terminal 2]⟩]
  start := 0

/-- What the words of the grammar lead to. -/
def chart : Chart where
  rows := [[(⟨2, 0⟩, [0]), (⟨0, 0⟩, [0]), (⟨1, 0⟩, [0])], [(⟨2, 1⟩, [0])],
    [(⟨0, 1⟩, [0]), (⟨0, 0⟩, [0]), (⟨1, 0⟩, [0])], [(⟨1, 1⟩, [0])], [(⟨0, 2⟩, [0])]]
  moves := [((0, .nonTerminal 0), 1), ((0, .terminal 0), 2), ((0, .terminal 2), 3), ((2, .terminal 0), 2),
    ((2, .nonTerminal 0), 4), ((2, .terminal 2), 3)]

theorem bounds_chart : chart.bounds cfg := by decide

theorem wellFormed : cfg.WellFormed :=
  have declared : endless.Declared := declared
  declared.wellFormed

theorem isLiteral : endless.IsLiteral := ⟨rfl, by decide⟩

theorem exists_toParser (options : ParserOptions) : ∃ parser, (endless.toParser options).run.value = .ok parser := by
  have settled : ∀ place < chart.rows.length, ∀ t < 3, chart.settled endless place t := by decide
  exact isLiteral.exists_toParser (Chart.exists_table endless bounds_chart wellFormed settled options.mergeCores)

/-- Nothing but ends of the input. -/
def source : TokenStream Unit := .ofList []

theorem ends_source : source.Ends := ⟨0, fun token read => by cases read; rfl⟩

/-- The end of the input. -/
def stop : Token Unit := ⟨endTerminal, "", ⟨0, 0⟩, ()⟩

variable {parser : Parser Unit} {options : ParserOptions} {stack : List (Entry Unit)} {word : List Symbol}

/-- In front of the end of the input a state of these places shifts it. -/
theorem exists_step (compiled : (endless.toParser options).run.value = .ok parser)
    (along : Along (cfg.collection options.mergeCores) stack word) (viable : cfg.Viable word ⟨0, 0⟩)
    (place : ∃ place ∈ [0, 2], chart.placeAfter word = some place) (n : Nat) : ∃ stack',
      (parser.machine.step source (.clean stack stop n)).value = .running (.clean stack' stop (n + 1)) ∧
      Along (cfg.collection options.mergeCores) stack' (.terminal 0 :: word) := by
  have automaton := Cfg.isAutomaton_collection wellFormed options.mergeCores
  have drives := Grammar.drives_of_toParser compiled wellFormed
  have read : (source n).value = .ok stop := rfl
  obtain ⟨place, within, there⟩ := place
  obtain ⟨target, running, along⟩ := drives.exists_shift wellFormed automaton stop along viable rfl
    (fun state target top follows leads bound => by
      obtain ⟨other, after, describes⟩ := Chart.exists_describes_of_spells bounds_chart wellFormed top follows.spells
      cases there.symm.trans after
      have alone : ∀ place ∈ [0, 2], ∀ e ∈ chart.demandsAt cfg place, e.1 = 0 → e.2 = .shift 0 := by decide
      exact Grammar.action_of_cellAt compiled wellFormed top bound
        (Chart.cellAt_of_alone endless wellFormed top describes (Cfg.shift_mem_of_lookup leads)
          (alone place within))) read
  exact ⟨_, running, along⟩

/-- The ends of the input are shifted one after the other. -/
theorem value_parse (compiled : (endless.toParser options).run.value = .ok parser) (limit : Nat) :
    (parser.machine.parse source limit).value = none := by
  let Shifts (c : Configuration Unit) : Prop := ∃ stack word n, c = .clean stack stop n ∧
    Along (cfg.collection options.mergeCores) stack word ∧ cfg.Viable word ⟨0, 0⟩ ∧
      ∃ place ∈ [0, 2], chart.placeAfter word = some place
  have begin : Shifts (.clean [] stop 1) :=
    ⟨[], [], 1, rfl, .bottom, .expand .start rfl (by decide), 0, by decide, rfl⟩
  refine Machine.parse_eq_none Shifts rfl begin ?_ limit
  rintro c ⟨stack, word, n, rfl, along, viable, place⟩
  obtain ⟨stack', running, along'⟩ := exists_step compiled along viable place n
  refine ⟨_, running, stack', _, n + 1, rfl, along', .expand (.advance viable rfl) rfl (by decide), 2, by decide, ?_⟩
  obtain ⟨place, within, there⟩ := place
  have leads : ∀ place ∈ [0, 2], chart.target? place (.terminal 0) = some 2 := by decide
  rw [Chart.placeAfter, there, Option.bind_some, leads place within]

end endless

/-- The grammar of the text kt, in which b is made of a and a of b.  The letter k binds the more tightly, and lends its
precedence to the production of b. -/
def circular : Grammar Unit where
  terminals := [⟨"$end", .reserved, none⟩, ⟨"error", .reserved, none⟩, ⟨"t", .literal "t", some ⟨1, .left⟩⟩,
    ⟨"k", .literal "k", some ⟨2, .left⟩⟩]
  nonTerminals := ["s", "a", "b"]
  productions := [⟨0, [.nonTerminal 1, .terminal 2], .ofValues fun _ => (), some ⟨1, .left⟩⟩,
    ⟨1, [.nonTerminal 2], .ofValues fun _ => (), none⟩,
    ⟨1, [.terminal 3], .ofValues fun _ => (), some ⟨2, .left⟩⟩,
    ⟨2, [.nonTerminal 1], .ofValues fun _ => (), some ⟨2, .left⟩⟩]
  start := 0
  ignored := []
  lexerOptions := {}

namespace circular

/-- The draft of the grammar. -/
def draft : GrammarDraft Unit :=
  let draft := (({} : GrammarDraft Unit).literal "t").1.literal "k" |>.1
  let draft := (draft.group .left [2]).group .left [3]
  let draft := ((draft.nonTerminal "s").1.nonTerminal "a").1.nonTerminal "b" |>.1
  let draft := (draft.production 0 [.nonTerminal 1, .literal "t"] (.ofValues fun _ => ())).1
  let draft := (draft.production 1 [.nonTerminal 2] (.ofValues fun _ => ())).1
  let draft := (draft.production 1 [.literal "k"] (.ofValues fun _ => ())).1
  let draft := (draft.production 2 [.nonTerminal 1] (.ofValues fun _ => ())).1
  { draft.lendPrecedence 3 3 with start := some 0 }

theorem declared : circular.Declared :=
  ⟨draft, .start (.lendPrecedence (.production (.production (.production (.production (.nonTerminal (.nonTerminal
    (.nonTerminal (.group (.group (.literal (.literal .empty _) _) _ _) _ _) _) _) _)
    _ _ _) _ _ _) _ _ _) _ _ _) _ _) _, rfl⟩

theorem neverMentionsEnd : circular.NeverMentionsEnd := by decide

/-- The grammar without names, actions and precedence. -/
def cfg : Cfg where
  terminalCount := 4
  nonTerminalCount := 3
  rules := #[⟨0, [.nonTerminal 1, .terminal 2]⟩, ⟨1, [.nonTerminal 2]⟩, ⟨1, [.terminal 3]⟩, ⟨2, [.nonTerminal 1]⟩]
  start := 0

/-- What the words of the grammar lead to. -/
def chart : Chart where
  rows := [[(⟨4, 0⟩, [0]), (⟨0, 0⟩, [0]), (⟨1, 0⟩, [2]), (⟨2, 0⟩, [2]), (⟨3, 0⟩, [2])], [(⟨4, 1⟩, [0])],
    [(⟨0, 1⟩, [0]), (⟨3, 1⟩, [2])], [(⟨1, 1⟩, [2])], [(⟨2, 1⟩, [2])], [(⟨0, 2⟩, [0])]]
  moves := [((0, .nonTerminal 0), 1), ((0, .nonTerminal 1), 2), ((0, .nonTerminal 2), 3), ((0, .terminal 3), 4),
    ((2, .terminal 2), 5)]

theorem bounds_chart : chart.bounds cfg := by decide

theorem wellFormed : cfg.WellFormed :=
  have declared : circular.Declared := declared
  declared.wellFormed

theorem isLiteral : circular.IsLiteral := ⟨rfl, by decide⟩

theorem exists_toParser (options : ParserOptions) : ∃ parser, (circular.toParser options).run.value = .ok parser := by
  have settled : ∀ place < chart.rows.length, ∀ t < 4, chart.settled circular place t := by decide
  exact isLiteral.exists_toParser (Chart.exists_table circular bounds_chart wellFormed settled options.mergeCores)

/-- The text kt, and the end of the input behind it. -/
def source : TokenStream Unit := .ofList [.ok ⟨3, "k", ⟨0, 1⟩, ()⟩, .ok ⟨2, "t", ⟨1, 2⟩, ()⟩]

theorem ends_source : source.Ends := ⟨2, fun token read => by cases read; rfl⟩

/-- The words that are reduced in front of the letter t, the productions, and what they make of the words. -/
def cycle : List (List Symbol × Nat × List Symbol) :=
  [([.terminal 3], 2, [.nonTerminal 1]), ([.nonTerminal 1], 3, [.nonTerminal 2]),
    ([.nonTerminal 2], 1, [.nonTerminal 1])]

section Cycle
variable {mergeCores : Bool} {word next : List Symbol} {i p : Nat} (h : (word, p, next) ∈ cycle)
include h

/-- There is one way to reduce each of these words. -/
theorem eq_of_reduces {last : List Symbol} (reduces : cfg.Reduces (cfg.collection mergeCores) 2 word last) :
    last = next := by
  obtain ⟨after, hs, hp, allows⟩ := reduces
  obtain ⟨state', hs', follows⟩ := (Cfg.isAutomaton_collection wellFormed mergeCores).follows after
  cases hs.symm.trans hs'
  obtain ⟨place, there, describes⟩ := Chart.exists_describes_of_spells bounds_chart wellFormed hs follows.spells
  obtain ⟨ts, hm, ht⟩ := describes.allows _ _ allows
  have charted : ∀ step ∈ cycle, ∀ place ∈ chart.placeAfter step.1, ∀ entry ∈ chart.row place, 2 ∈ entry.2 →
      ∀ rule ∈ cfg.rules[entry.1.production]?, entry.1.dot = rule.symbols.length →
        .nonTerminal rule.result :: step.1.drop rule.symbols.length = step.2.2 := by decide
  exact charted _ h place there _ hm ht _ hp rfl

theorem exists_valid : ∃ rule, cfg.rules[p]? = some rule ∧ cfg.Valid word ⟨p, rule.symbols.length⟩ 2 := by
  have first : cfg.Valid [] ⟨1, 0⟩ 2 := .first (.expand .start rfl (p := 0) (by decide)) rfl (by decide) (by decide)
  have second : cfg.Valid [] ⟨2, 0⟩ 2 := first.sibling rfl rfl rfl
  have third : cfg.Valid [] ⟨3, 0⟩ 2 := .pass first rfl (by decide) (by decide)
  simp only [cycle, List.mem_cons, Prod.mk.injEq, List.not_mem_nil, or_false] at h
  rcases h with ⟨rfl, rfl, -⟩ | ⟨rfl, rfl, -⟩ | ⟨rfl, rfl, -⟩
  · exact ⟨_, rfl, second.advance rfl⟩
  · exact ⟨_, rfl, third.advance rfl⟩
  · exact ⟨_, rfl, first.advance rfl⟩

/-- In front of the letter t they are reduced, as precedence decides for the production of b. -/
theorem cellAt_eq {state : State} (after : Cfg.stateAfter (cfg.collection mergeCores) word = some i)
    (hs : (cfg.collection mergeCores)[i]? = some state) : circular.cellAt i state 2 = .ok (.demand (.reduce p)) := by
  obtain ⟨state', hs', follows⟩ := (Cfg.isAutomaton_collection wellFormed mergeCores).follows after
  cases hs.symm.trans hs'
  obtain ⟨place, there, describes⟩ := Chart.exists_describes_of_spells bounds_chart wellFormed hs follows.spells
  obtain ⟨rule, hp, valid⟩ := exists_valid h
  refine Chart.cellAt_of_reduce circular wellFormed hs describes
    (Cfg.reduce_mem_of_allows hp (follows.allows _ _ valid)) fun e he ht => ?_
  have charted : ∀ step ∈ cycle, ∀ place ∈ chart.placeAfter step.1, ∀ e ∈ chart.demandsAt cfg place, e.1 = 2 →
      e.2 = .reduce step.2.1 ∨ e.2 = .shift 0 ∧ step.2.1 = 3 := by decide
  refine (charted _ h place there e he ht).imp_right fun ⟨shift, settled⟩ => ⟨shift, fun target => ?_⟩
  cases settled
  rfl

end Cycle

/-- The letter t, with its place. -/
def upcoming : Token Unit := ⟨2, "t", ⟨1, 2⟩, ()⟩

variable {parser : Parser Unit} {options : ParserOptions} {stack : List (Entry Unit)}

/-- The first step takes the letter k. -/
theorem exists_first (compiled : (circular.toParser options).run.value = .ok parser) : ∃ stack,
    (parser.machine.step source (.clean [] ⟨3, "k", ⟨0, 1⟩, ()⟩ 1)).value = .running (.clean stack upcoming 2) ∧
      Along (cfg.collection options.mergeCores) stack [.terminal 3] := by
  have automaton := Cfg.isAutomaton_collection wellFormed options.mergeCores
  have drives := Grammar.drives_of_toParser compiled wellFormed
  have viable : cfg.Viable [] ⟨2, 0⟩ := .expand (.expand .start rfl (p := 0) (by decide)) rfl (by decide)
  have read : (source 1).value = .ok upcoming := rfl
  have alone : ∀ e ∈ chart.demandsAt cfg 0, e.1 = 3 → e.2 = .shift 0 := by decide
  obtain ⟨target, running, along⟩ := drives.exists_shift wellFormed automaton ⟨3, "k", ⟨0, 1⟩, ()⟩ .bottom viable rfl
    (fun state target top follows leads bound => by
      obtain ⟨place, there, describes⟩ := Chart.exists_describes_of_spells bounds_chart wellFormed top follows.spells
      cases there
      exact Grammar.action_of_cellAt compiled wellFormed top bound
        (Chart.cellAt_of_alone circular wellFormed top describes (Cfg.shift_mem_of_lookup leads) alone)) read
  exact ⟨_, running, along⟩

/-- And each one after it reduces. -/
theorem exists_step (compiled : (circular.toParser options).run.value = .ok parser) {c : Configuration Unit}
    (reaches : parser.machine.Reaches source c) (upcoming : c.lookahead.terminal = 2)
    {word next : List Symbol} {p : Nat} (h : (word, p, next) ∈ cycle)
    (along : Along (cfg.collection options.mergeCores) c.stack word) : ∃ c',
      (parser.machine.step source c).value = .running c' ∧ c'.lookahead.terminal = 2 ∧
      Along (cfg.collection options.mergeCores) c'.stack next := by
  have automaton := Cfg.isAutomaton_collection wellFormed options.mergeCores
  have drives := Grammar.drives_of_toParser compiled wellFormed
  have heeds := Grammar.heeds_of_toParser compiled wellFormed
  obtain ⟨leaves, supported⟩ := reaches.exists_supported circular wellFormed automaton drives
  obtain ⟨state, top, -⟩ := along.follows automaton
  have filled := cellAt_eq h along.stateAfter_eq top
  have action := Grammar.action_of_cellAt compiled wellFormed top (by decide) filled
  rw [← upcoming] at action
  have known : c.lookahead.terminal < parser.machine.table.actions.terminalCount := by
    rw [upcoming, drives.terminalCount_eq]
    decide
  obtain ⟨stack, word', running, -, along', reduces⟩ :=
    heeds.exists_reduction source wellFormed automaton drives supported along known action
  rw [upcoming] at reduces
  exact ⟨_, running, upcoming, eq_of_reduces h reduces ▸ along'⟩

/-- Behind the letter k there are nothing but reductions. -/
theorem value_parse (compiled : (circular.toParser options).run.value = .ok parser) (limit : Nat) :
    (parser.machine.parse source limit).value = none := by
  let Circles (c : Configuration Unit) : Prop := parser.machine.Reaches source c ∧
    (c = .clean [] ⟨3, "k", ⟨0, 1⟩, ()⟩ 1 ∨ c.lookahead.terminal = 2 ∧
      ∃ step ∈ cycle, Along (cfg.collection options.mergeCores) c.stack step.1)
  have begin : Circles (.clean [] ⟨3, "k", ⟨0, 1⟩, ()⟩ 1) := ⟨.start rfl, .inl rfl⟩
  have again : ∀ step ∈ cycle, ∃ other ∈ cycle, other.1 = step.2.2 := by decide
  refine Machine.parse_eq_none Circles rfl begin ?_ limit
  rintro c ⟨reaches, rfl | ⟨upcoming, ⟨word, p, next⟩, h, along⟩⟩
  · obtain ⟨stack, running, along⟩ := exists_first compiled
    exact ⟨_, running, reaches.step running, .inr ⟨rfl, _, List.mem_cons_self, along⟩⟩
  · obtain ⟨c', running, upcoming', along'⟩ := exists_step compiled reaches upcoming h along
    obtain ⟨other, hother, same⟩ := again _ h
    exact ⟨c', running, reaches.step running, .inr ⟨upcoming', other, hother, same ▸ along'⟩⟩

end circular

variable {parser : Parser α} {options : ParserOptions}

/-- **Every parse whose tokens end comes to a result**, if no production mentions the end of the input and precedence
has no conflict of a production without terminals to settle. -/
theorem parse_terminates {grammar : Grammar α} (declared : grammar.Declared)
    (compiled : (grammar.toParser options).run.value = .ok parser) (noEnd : grammar.NeverMentionsEnd)
    (spares : grammar.SparesSilent options.mergeCores) {source : TokenStream α} (ends : source.Ends) :
    ∃ result, parser.machine.Yields source result := by
  have wf := declared.wellFormed
  obtain ⟨table, built, -⟩ := Grammar.table_of_toParser compiled
  have automaton := Cfg.isAutomaton_collection wf options.mergeCores
  have drives := Grammar.drives_of_toParser compiled wf
  have heeds := Grammar.heeds_of_toParser compiled wf
  refine Machine.exists_yields_of_acc fun first read => ?_
  refine (Machine.Reaches.start read).acc wf automaton drives heeds noEnd (fun t known word => ?_) ends
  rw [drives.terminalCount_eq] at known
  exact Cfg.halts wf (spares.undisputed wf built known) word

theorem parse_terminates_nest : ∃ parser : Parser (List Nat),
    ((nest SyntaxError.state).toParser {}).run.value = .ok parser ∧ (nest SyntaxError.state).NeverMentionsEnd ∧
    (nest SyntaxError.state).SparesSilent true ∧ nest.source.Ends ∧
    ∃ result, parser.machine.Yields nest.source result := by
  obtain ⟨parser, compiled⟩ := nest.exists_toParser SyntaxError.state {}
  obtain ⟨table, built, -⟩ := Grammar.table_of_toParser compiled
  have spares : (nest SyntaxError.state).SparesSilent true :=
    Grammar.sparesSilent_of_unlent nest.wellFormed built fun production hp _ => by
      simp only [nest, List.mem_cons, List.not_mem_nil, or_false] at hp
      rcases hp with rfl | rfl <;> rfl
  exact ⟨parser, compiled, nest.neverMentionsEnd, spares, nest.ends_source,
    parse_terminates nest.declared compiled nest.neverMentionsEnd spares nest.ends_source⟩

/-- **Some parses run forever.**  In `endless` a production mentions the end of the input, which is shifted over and
over again.  In `circular` precedence settles a conflict in favour of a production without terminals, which is reduced
over and over again. -/
theorem parse_runs_forever : (endless.Declared ∧ endless.HasNoPrecedence ∧ endless.source.Ends ∧
      ∃ parser, (endless.toParser {}).run.value = .ok parser ∧
        ∀ limit, (parser.machine.parse endless.source limit).value = none) ∧
    (circular.Declared ∧ circular.NeverMentionsEnd ∧ circular.source.Ends ∧
      ∃ parser, (circular.toParser {}).run.value = .ok parser ∧
        ∀ limit, (parser.machine.parse circular.source limit).value = none) := by
  obtain ⟨parser, compiled⟩ := endless.exists_toParser {}
  obtain ⟨parser', compiled'⟩ := circular.exists_toParser {}
  exact ⟨⟨endless.declared, endless.hasNoPrecedence, endless.ends_source, parser, compiled,
      endless.value_parse compiled⟩,
    circular.declared, circular.neverMentionsEnd, circular.ends_source, parser', compiled',
    circular.value_parse compiled'⟩

end TableParsing
