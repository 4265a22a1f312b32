import NewtonScript.Proofs.Emission.Store
import NewtonScript.Proofs.Tree.Phases

/-!
# What parsers have in hand

A parser builds trees from their leaves.  At any time it has some nodes in
hand, which become parts of larger ones and are never lost; names are interned
and objects are made on the way, and function literals get their numbers.

A ledger says something about the nodes in hand, the store and the numbers
given out.  Whatever the few ways to build a node and to change the store keep
is kept by reading a program.

On its way the parser begins its expressions where operands can begin, and ends
them where operands have ended.
-/

namespace NewtonScript

/-- Whether an expression is neither a literal nor a function literal. -/
def Expr.isComposed : Expr → Bool
  | .literal _ => false
  | .func .. => false
  | _ => true

/-- The literals of a tree are neither maps nor code blocks.  If the words fit
that are read, so do the literals. -/
def Value.Suits (strict : Prop) (value : Value) : Prop :=
  value.isPlain ∧ (strict → value.fits)

/-- What holds of the nodes in hand, of the store, and of the number of
function literals that were read.  A strict ledger is about words that fit. -/
structure Ledger where
  strict : Prop
  Holds : List Node → Store → Nat → Prop
  perm : ∀ {held held' : List Node} {store : Store} {count : Nat}, held.Perm held' →
    Holds held store count → Holds held' store count
  store : ∀ {held : List Node} {before after : Store} {count : Nat},
    (∀ known, Store.Harmless known before after) → Holds held before count →
      Holds held after count
  node : ∀ {frame : List Node} {expr : Expr} (span : Span) {store : Store} {count : Nat},
    expr.isComposed = true → Holds (frame ++ expr.children) store count →
      Holds (frame ++ [⟨expr, span⟩]) store count
  literal : ∀ {frame : List Node} {value : Value} (span : Span) {store : Store} {count : Nat},
    value.Suits strict → Holds frame store count →
      Holds (frame ++ [⟨.literal value, span⟩]) store count
  respan : ∀ {frame : List Node} {expr : Expr} {span : Span} (span' : Span) {store : Store}
    {count : Nat}, Holds (frame ++ [⟨expr, span⟩]) store count →
      Holds (frame ++ [⟨expr, span'⟩]) store count
  function : ∀ {frame : List Node} {body : Node} (params : List Param) (native : Bool)
    (name : Option Symbol) (span : Span) {store : Store} {count : Nat},
    Holds (frame ++ [body]) store count →
      Holds (frame ++ [⟨.func (count + 1) params body native name, span⟩]) store (count + 1)

/-- The words that a parser has read and not consumed fit. -/
def Parser.Fits (parser : Parser) : Prop :=
  parser.current.lexeme.Fits ∧ (∀ token ∈ parser.lookahead, token.lexeme.Fits) ∧
    ∀ token ∈ parser.tokens.pending, token.lexeme.Fits

namespace Ledger

variable {ledger : Ledger} {held held' held'' : List Node}

/-- What holds of a parser with nodes in hand. -/
def At (ledger : Ledger) (held : List Node) (parser : Parser) : Prop :=
  (ledger.strict → parser.Fits) ∧ ledger.Holds held parser.tokens.store parser.functions

/-- Nodes in hand can be exchanged for others, whatever else is in hand. -/
def Leads (ledger : Ledger) (held held' : List Node) : Prop :=
  ∀ frame store count, ledger.Holds (frame ++ held) store count →
    ledger.Holds (frame ++ held') store count

theorem Leads.trans (first : ledger.Leads held held') (second : ledger.Leads held' held'') :
    ledger.Leads held held'' :=
  fun frame store count holds => second frame store count (first frame store count holds)

theorem leads_of_perm (perm : held.Perm held') : ledger.Leads held held' :=
  fun frame _ _ => ledger.perm (perm.append_left frame)

theorem Leads.refl (held : List Node) : ledger.Leads held held :=
  leads_of_perm (.refl held)

theorem Leads.behind (leads : ledger.Leads held held') (rest : List Node) :
    ledger.Leads (rest ++ held) (rest ++ held') := by
  intro frame store count holds
  have moved := leads (frame ++ rest) store count (by rwa [List.append_assoc])
  rwa [List.append_assoc] at moved

theorem Leads.before (leads : ledger.Leads held held') (rest : List Node) :
    ledger.Leads (held ++ rest) (held' ++ rest) :=
  (leads_of_perm List.perm_append_comm).trans
    ((leads.behind rest).trans (leads_of_perm List.perm_append_comm))

/-- A node can be built from the nodes below it. -/
theorem leads_node {expr : Expr} (span : Span) (composed : expr.isComposed = true) :
    ledger.Leads expr.children [⟨expr, span⟩] :=
  fun _ _ _ => ledger.node span composed

theorem leads_literal {value : Value} (span : Span) (suits : value.Suits ledger.strict) :
    ledger.Leads [] [⟨.literal value, span⟩] :=
  fun frame _ _ holds => ledger.literal span suits (by rwa [List.append_nil] at holds)

end Ledger

/-! ## The nodes in results -/

/-- What a parser gives: the nodes in it. -/
class Carrier (α : Type) where
  nodes : α → List Node

namespace Carrier

instance : Carrier Node := ⟨fun node => [node]⟩

instance {α : Type} [Carrier α] : Carrier (List α) := ⟨fun values => values.flatMap nodes⟩

instance {α : Type} [Carrier α] : Carrier (Option α) := ⟨fun found => found.toList.flatMap nodes⟩

instance {α : Type} [Carrier α] : Carrier (Symbol × α) := ⟨fun pair => nodes pair.2⟩

instance : Carrier (Node × List Waiting) := ⟨fun pair => [pair.1]⟩

instance : Carrier PathKey := ⟨fun
  | .slot _ => []
  | .computed key => [key]⟩

instance : Carrier Binding := ⟨fun binding => binding.value.toList⟩

instance : Carrier Handler := ⟨fun handler => [handler.body]⟩

instance : Carrier Slot := ⟨fun slot => [slot.value]⟩

instance : Carrier OperatorStacks := ⟨fun pending => pending.operands⟩

@[simp]
theorem nodes_list (values : List Node) : nodes values = values :=
  List.flatMap_singleton' values

@[simp]
theorem nodes_option (found : Option Node) : nodes found = found.toList :=
  List.flatMap_singleton' found.toList

theorem nodes_bindings (bindings : List Binding) :
    nodes bindings = bindings.filterMap Binding.value := by
  induction bindings with
  | nil => rfl
  | cons binding rest ih =>
    obtain ⟨name, type, value, span⟩ := binding
    cases value with
    | none => exact ih
    | some value => exact congrArg (List.cons value) ih

theorem nodes_handlers (handlers : List Handler) : nodes handlers = handlers.map Handler.body :=
  List.map_eq_flatMap.symm

theorem nodes_slots (slots : List Slot) : nodes slots = slots.map Slot.value :=
  List.map_eq_flatMap.symm

end Carrier

/-! ## Tokens -/

namespace TokenStream

variable {holds : Store → Prop}

theorem preserves_scan (intern : ∀ store spelling, holds store → holds (store.intern spelling).2) :
    Preserves (fun stream : TokenStream => holds stream.store) scan := by
  intro stream given
  unfold scan
  cases stream.cursor.scan with
  | mk outcome cursor =>
    cases outcome with
    | error failure => exact ⟨given, trivial⟩
    | ok token =>
      refine ⟨?_, trivial⟩
      cases token.lexeme with
      | identifier name => exact intern _ _ given
      | _ => exact given

/-- To read a token does no more to the store than to intern names. -/
theorem preserves_next
    (intern : ∀ store spelling, holds store → holds (store.intern spelling).2) :
    Preserves (fun stream : TokenStream => holds stream.store) next := by
  refine ensures_get.bind fun stream _ => ?_
  cases stream.pending with
  | some token =>
    exact Ensures.seq (preserves_modify fun _ given => given) fun _ => ensures_pure trivial
  | none =>
    refine (preserves_scan intern).seq fun token => ?_
    cases token.lexeme.isSeparator with
    | false => exact ensures_pure trivial
    | true =>
      refine (preserves_scan intern).seq fun following => ?_
      cases token.lexeme.absorbedBy following.lexeme with
      | true => exact ensures_pure trivial
      | false =>
        exact Ensures.seq (preserves_modify fun _ given => given) fun _ =>
          ensures_pure trivial

end TokenStream

open Carrier

namespace Ledger

/-- What the literals of a tree are. -/
abbrev Suits (ledger : Ledger) (value : Value) : Prop :=
  value.Suits ledger.strict

/-- What is known about a word that was read. -/
abbrev Read (ledger : Ledger) (lexeme : Lexeme) : Prop :=
  ledger.strict → lexeme.Fits

theorem suits_int {ledger : Ledger} {n : Int} (low : minInt ≤ n) (high : n ≤ maxInt) :
    ledger.Suits (.int n) :=
  ⟨rfl, fun _ => by simp [Value.fits, low, high]⟩

end Ledger

namespace Parser

/-! ## Tokens in hand -/

section

variable {ledger : Ledger} {held : List Node}

theorem ensures_readToken :
    Ensures (ledger.At held) readToken fun token => ledger.Read token.lexeme := by
  intro parser holds
  have read := fun known => TokenStream.preserves_next
    (fun _ _ harmless => harmless.trans (Store.harmless_intern known _ _)) parser.tokens
    (Store.Harmless.refl known parser.tokens.store)
  unfold readToken
  cases run : TokenStream.next parser.tokens with
  | ok token tokens =>
    simp only [run] at read
    refine ⟨⟨fun strict => ?_, ledger.store (fun known => (read known).1) holds.2⟩, fun strict => ?_⟩
    · obtain ⟨current, lookahead, pending⟩ := holds.1 strict
      exact ⟨current, lookahead, (TokenStream.next_ok_fits pending run).2⟩
    · exact (TokenStream.next_ok_fits (holds.1 strict).2.2 run).1
  | error failure tokens =>
    simp only [run] at read
    refine ⟨⟨fun strict => ?_, ledger.store (fun known => (read known).1) holds.2⟩, trivial⟩
    obtain ⟨current, lookahead, -⟩ := holds.1 strict
    refine ⟨current, lookahead, fun token ahead => ?_⟩
    cases (TokenStream.next_error_spends run).2.symm.trans ahead

theorem ensures_takeNext :
    Ensures (ledger.At held) takeNext fun token => ledger.Read token.lexeme := by
  refine ensures_get.bind fun parser before => ?_
  cases ahead : parser.lookahead with
  | some token =>
    have cleared : Preserves (ledger.At held) (modify fun parser =>
        { parser with lookahead := none } : ParseM PUnit) :=
      preserves_modify fun _ holds => ⟨fun strict => ⟨(holds.1 strict).1,
        fun _ found => absurd found (Option.not_mem_none _), (holds.1 strict).2.2⟩, holds.2⟩
    exact cleared.seq fun _ => ensures_pure fun strict => (before.1 strict).2.1 token ahead
  | none => exact ensures_readToken

theorem preserves_advance : Preserves (ledger.At held) advance :=
  ensures_takeNext.bind fun _ read => ensures_modifyGet fun _ holds =>
    ⟨⟨fun strict => ⟨read strict, (holds.1 strict).2⟩, holds.2⟩, trivial⟩

theorem preserves_peekLexeme : Preserves (ledger.At held) peekLexeme :=
  ensures_takeNext.bind fun _ read => (preserves_modify fun _ holds =>
    ⟨fun strict => ⟨(holds.1 strict).1, fun _ found => Option.some.inj found ▸ read strict,
      (holds.1 strict).2.2⟩, holds.2⟩).seq fun _ => ensures_pure trivial

theorem preserves_prime : Preserves (ledger.At held) prime := by
  refine ensures_get.bind fun parser _ => ?_
  cases parser.started with
  | true => exact ensures_pure trivial
  | false =>
    exact ensures_readToken.bind fun _ read => preserves_modify fun _ holds =>
      ⟨fun strict => ⟨read strict, (holds.1 strict).2⟩, holds.2⟩

end

/-! ## Walks -/

/-- What holds of the words that were consumed and of the one looked at. -/
abbrev Here := Phase → Lexeme → Prop

/-- In the given phase, whatever is looked at. -/
def At (phase : Phase) : Here :=
  fun phase' _ => phase' = phase

/-- A condition, and the word looked at. -/
def Looking (pre : Here) (word : Lexeme) : Here :=
  fun phase here => pre phase here ∧ here = word

theorem next_of_at {phase : Phase} {word : Lexeme} (phase' : Phase) (holds : At phase phase' word) :
    phase'.next word = phase.next word :=
  congrArg (Phase.next · word) holds

/-- The way of a parser from where it began, with a ledger of what is in hand. -/
structure Walk where
  ledger : Ledger
  start : Parser
  begun : start.started = true

namespace Walk

/-- Where a walk has come. -/
structure Stage (walk : Walk) (held : List Node) (row : List Lexeme) (parser : Parser) : Prop where
  trail : Trail walk.start row parser
  signed : SignedOnly row
  kept : walk.ledger.At held parser

/-- An action, begun where the first condition holds with some nodes in hand,
ends where the second one holds with those that it gives in hand instead,
whatever else is in hand.  When it fails, some are left. -/
def CoversFrom {α : Type} (walk : Walk) (parser : Parser) (pre : Here) (held : List Node)
    (action : ParseM α) (gives : α → List Node) (post : α → Here) : Prop :=
  ∀ frame row, walk.Stage (frame ++ held) row parser →
    pre (.behind row) parser.current.lexeme → match action parser with
      | .ok value after => ∃ row', walk.Stage (frame ++ gives value) row' after ∧
          post value (.behind row') after.current.lexeme
      | .error failure after => Stops walk.start failure after ∧ ∃ left, walk.ledger.At left after

/-- The same from everywhere. -/
def Covers {α : Type} (walk : Walk) (pre : Here) (held : List Node) (action : ParseM α)
    (gives : α → List Node) (post : α → Here) : Prop :=
  ∀ parser, walk.CoversFrom parser pre held action gives post

variable {walk : Walk} {α β : Type} {pre pre' : Here} {held : List Node}

/-- An action that gives no nodes. -/
abbrev Quiet (walk : Walk) (pre : Here) (action : ParseM α) (post : α → Here) : Prop :=
  walk.Covers pre [] action (fun _ => []) post

/-- An action that gives the nodes of its result. -/
abbrev Gathers [Carrier α] (walk : Walk) (pre : Here) (held : List Node) (action : ParseM α)
    (post : Here) : Prop :=
  walk.Covers pre held action nodes fun _ => post

/-! ## Rules -/

section

variable {action : ParseM α} {next : α → ParseM β} {gives : α → List Node} {gives' : β → List Node}
  {mid post : α → Here} {post' : β → Here}

theorem CoversFrom.sequence {parser : Parser} {held' : List Node} {held'' : α → List Node}
    (first : walk.CoversFrom parser pre held' action gives mid)
    (second : ∀ value middle, action parser = .ok value middle →
      walk.CoversFrom middle (mid value) (held'' value) (next value) gives' post')
    (split : ∀ frame, ∃ front, front ++ held' = frame ++ held ∧
      ∀ value, front ++ gives value = frame ++ held'' value) :
    walk.CoversFrom parser pre held (action >>= next) gives' post' := by
  intro frame row stage holds
  obtain ⟨front, before, behind⟩ := split frame
  have between := first front row (before ▸ stage) holds
  cases run : action parser with
  | ok value middle =>
    rw [run] at between
    rw [run_bind_of_ok run]
    obtain ⟨row', stage, holds⟩ := between
    exact second value middle run frame row' (behind value ▸ stage) holds
  | error failure middle =>
    rw [run] at between
    rw [run_bind_of_error run]
    exact between

theorem Quiet.bindFrom {parser : Parser} (first : walk.Quiet pre action mid)
    (second : ∀ value middle, action parser = .ok value middle →
      walk.CoversFrom middle (mid value) held (next value) gives' post') :
    walk.CoversFrom parser pre held (action >>= next) gives' post' :=
  (first parser).sequence second fun frame =>
    ⟨frame ++ held, List.append_nil _, fun _ => List.append_nil _⟩

/-- What was in hand waits while the first action is carried out. -/
theorem Covers.bind (first : walk.Covers pre [] action gives mid)
    (second : ∀ value, walk.Covers (mid value) (held ++ gives value) (next value) gives' post') :
    walk.Covers pre held (action >>= next) gives' post' :=
  fun parser => (first parser).sequence (fun value middle _ => second value middle) fun frame =>
    ⟨frame ++ held, List.append_nil _, fun _ => List.append_assoc ..⟩

theorem Quiet.bind (first : walk.Quiet pre action mid)
    (second : ∀ value, walk.Covers (mid value) held (next value) gives' post') :
    walk.Covers pre held (action >>= next) gives' post' :=
  fun _ => Quiet.bindFrom first fun value middle _ => second value middle

theorem Gathers.bind [Carrier α] {mid : Here} (first : walk.Gathers pre [] action mid)
    (second : ∀ value, walk.Covers mid (held ++ nodes value) (next value) gives' post') :
    walk.Covers pre held (action >>= next) gives' post' :=
  Covers.bind first second

/-- The first action takes over all that is in hand. -/
theorem Gathers.andThen [Carrier α] {mid : Here} (first : walk.Gathers pre held action mid)
    (second : ∀ value, walk.Covers mid (nodes value) (next value) gives' post') :
    walk.Covers pre held (action >>= next) gives' post' :=
  fun parser => (first parser).sequence (fun value middle _ => second value middle) fun frame =>
    ⟨frame, rfl, fun _ => rfl⟩

theorem Covers.mono (covers : walk.Covers pre' held action gives post)
    (weaker : ∀ phase here, pre phase here → pre' phase here) :
    walk.Covers pre held action gives post :=
  fun parser frame row stage holds => covers parser frame row stage (weaker _ _ holds)

theorem Covers.weaken {mid : α → Here} (covers : walk.Covers pre held action gives mid)
    (weaker : ∀ value phase here, mid value phase here → post value phase here) :
    walk.Covers pre held action gives post := by
  intro parser frame row stage holds
  have outcome := covers parser frame row stage holds
  cases run : action parser with
  | ok value after =>
    rw [run] at outcome
    obtain ⟨row', stage, holds⟩ := outcome
    exact ⟨row', stage, weaker _ _ _ holds⟩
  | error failure after =>
    rw [run] at outcome
    exact outcome

/-- What is known of a result does not change. -/
theorem Covers.fact {known : Prop} (covers : known → walk.Covers pre held action gives post) :
    walk.Covers (fun phase here => known ∧ pre phase here) held action gives post :=
  fun parser frame row stage holds => covers holds.1 parser frame row stage holds.2

theorem Covers.lead {held' : List Node} (covers : walk.Covers pre held' action gives post)
    (leads : walk.ledger.Leads held held') : walk.Covers pre held action gives post :=
  fun parser frame row stage => covers parser frame row
    ⟨stage.trail, stage.signed, stage.kept.1, leads frame _ _ stage.kept.2⟩

theorem Covers.give {value : α} (leads : walk.ledger.Leads held (gives value))
    (weaker : ∀ phase here, pre phase here → post value phase here) :
    walk.Covers pre held (pure value) gives post :=
  fun _ frame _ stage holds =>
    ⟨_, ⟨stage.trail, stage.signed, stage.kept.1, leads frame _ _ stage.kept.2⟩, weaker _ _ holds⟩

theorem Quiet.give {value : α} (weaker : ∀ phase here, pre phase here → post value phase here) :
    walk.Quiet pre (pure value) post :=
  Covers.give (.refl []) weaker

theorem Quiet.keep {value : α} : walk.Quiet pre (pure value) fun _ => pre :=
  .give fun _ _ holds => holds

/-- The nodes of a result that are in hand, in whatever order. -/
theorem Gathers.give [Carrier α] {value : α} (perm : held.Perm (nodes value)) :
    walk.Gathers pre held (pure value) pre :=
  Covers.give (Ledger.leads_of_perm perm) fun _ _ holds => holds

theorem Covers.unexpected : walk.Covers pre held unexpected gives post :=
  fun _ _ _ stage _ => ⟨.refused stage.trail stage.signed (by rintro - _ ⟨⟩), _, stage.kept⟩

theorem Covers.bounded {action : Nat → ParseM α}
    (covers : ∀ bound, walk.Covers pre held (action bound) gives post) :
    walk.Covers pre held (bounded action) gives post :=
  fun parser => covers parser.bound parser

end

/-! ## Steps of a parser -/

theorem quiet_expect (what : Expectation) : walk.Quiet pre (expect what) fun _ => pre := by
  intro parser frame row stage holds
  rw [expect_run]
  exact ⟨row, ⟨stage.trail.aside _ parser.functions parser.tokens.store, stage.signed, stage.kept⟩,
    holds⟩

theorem Covers.unexpectedFor {what : Expectation} {gives : α → List Node} {post : α → Here} :
    walk.Covers pre held (unexpectedFor what) gives post :=
  (quiet_expect what).bind fun _ => .unexpected

theorem quiet_currentSpan : walk.Quiet pre currentSpan fun _ => pre :=
  fun _ _ row stage holds => ⟨row, stage, holds⟩

theorem quiet_spanFrom (span : Span) : walk.Quiet pre (spanFrom span) fun _ => pre :=
  fun _ _ row stage holds => ⟨row, stage, holds⟩

theorem quiet_withStore {action : Store → α × Store} {result : α → Prop}
    (harmless : ∀ known store, Store.Harmless known store (action store).2)
    (known : ∀ store, result (action store).1) :
    walk.Quiet pre (withStore action) fun value phase here => result value ∧ pre phase here :=
  fun parser _ row stage holds => ⟨row,
    ⟨stage.trail.aside parser.expected parser.functions (action parser.tokens.store).2, stage.signed,
      stage.kept.1, walk.ledger.store (fun known => harmless known parser.tokens.store) stage.kept.2⟩,
    known parser.tokens.store, holds⟩

theorem quiet_intern (spelling : String) :
    walk.Quiet pre (withStore (Store.intern spelling)) fun _ phase here => True ∧ pre phase here :=
  quiet_withStore (fun known => Store.harmless_intern known spelling) fun _ => trivial

theorem quiet_currentLexeme : walk.Quiet pre currentLexeme (Looking pre) :=
  fun _ _ row stage holds => ⟨row, stage, holds, rfl⟩

theorem quiet_advance {post : Phase → Prop}
    (steps : ∀ phase word, pre phase word → post (phase.next word))
    (signs : ∀ phase, pre phase .magnitude → phase.signs = true) :
    walk.Quiet pre advance fun _ phase _ => post phase := by
  intro parser frame row stage holds
  have kept := preserves_advance parser stage.kept
  cases run : advance parser with
  | ok token after =>
    rw [run] at kept
    have signed := stage.signed.snoc fun equal => signs _ (equal ▸ holds)
    refine ⟨_, ⟨stage.trail.took run, signed, kept.1⟩, ?_⟩
    rw [Phase.behind_snoc]
    exact steps _ _ holds
  | error failure after =>
    rw [run] at kept
    refine ⟨.unread stage.trail stage.signed ?_, _, kept.1⟩
    obtain ⟨-, tokens, read, rfl⟩ := advance_eq_error run
    unfold readToken
    rw [read]

theorem quiet_peekLexeme : walk.Quiet pre peekLexeme fun _ => pre := by
  intro parser frame row stage holds
  have kept := preserves_peekLexeme parser stage.kept
  cases run : peekLexeme parser with
  | ok word after =>
    rw [run] at kept
    refine ⟨row, ⟨stage.trail.looked run, stage.signed, kept.1⟩, ?_⟩
    obtain ⟨token, middle, took, ⟨⟩⟩ := run_bind_eq_ok run
    rcases takeNext_eq_ok took with ⟨-, rfl⟩ | ⟨-, tokens, -, rfl⟩ <;> exact holds
  | error failure after =>
    rw [run] at kept
    obtain run | ⟨_, _, -, ⟨⟩⟩ := run_bind_eq_error run
    refine ⟨.unread stage.trail stage.signed ?_, _, kept.1⟩
    obtain ⟨-, tokens, read, rfl⟩ := takeNext_eq_error run
    unfold readToken
    rw [read]

/-- A known word is consumed. -/
theorem quiet_known {word : Lexeme} {phase' : Phase}
    (steps : ∀ phase, pre phase word → phase.next word = phase') (small : word ≠ .magnitude) :
    walk.Quiet (Looking pre word) advance fun _ => At phase' := by
  refine quiet_advance ?_ ?_
  · rintro phase _ ⟨holds, rfl⟩
    exact steps phase holds
  · rintro phase ⟨-, rfl⟩
    exact absurd rfl small

theorem quiet_check {word : Lexeme} (noName : word.isName = false) :
    walk.Quiet pre (check word) fun found phase here =>
      pre phase here ∧ (found = true → here = word) := by
  intro parser frame row stage holds
  rw [check_run]
  exact ⟨row, ⟨stage.trail.aside _ parser.functions parser.tokens.store, stage.signed, stage.kept⟩,
    holds, Lexeme.eq_of_beq_noName noName⟩

/-- What holds where a word was looked for: behind it, or still in front of
another one. -/
def Sought (pre : Here) (phase : Phase) : Bool → Here
  | true => At phase
  | false => pre

section

variable {word : Lexeme} {phase' : Phase} (mark : word.isMark = true)
  (steps : ∀ phase, pre phase word → phase.next word = phase')

include mark steps

theorem quiet_mark : walk.Quiet (Looking pre word) advance fun _ => At phase' :=
  quiet_known steps (Lexeme.ne_magnitude_of_mark mark)

theorem quiet_accept : walk.Quiet pre (accept word) (Sought pre phase') := by
  refine (quiet_check (Lexeme.noName_of_mark mark)).bind fun found => ?_
  cases found with
  | true =>
    exact ((quiet_mark mark steps).mono fun _ _ holds => ⟨holds.1, holds.2 rfl⟩).bind
      fun _ => Quiet.give fun _ _ holds => holds
  | false => exact Quiet.give fun _ _ holds => holds.1

theorem quiet_consume : walk.Quiet pre (consume word) fun _ => At phase' := by
  refine (quiet_check (Lexeme.noName_of_mark mark)).bind fun found => ?_
  cases found with
  | true =>
    exact ((quiet_mark mark steps).mono fun _ _ holds => ⟨holds.1, holds.2 rfl⟩).bind
      fun _ => Quiet.keep
  | false => exact .unexpected

end

theorem quiet_atIdentifier : walk.Quiet pre atIdentifier fun _ => pre := by
  refine quiet_currentLexeme.bind fun word => ?_
  cases word <;> exact Quiet.give fun _ _ holds => holds.1

theorem quiet_identifier {phase' : Phase}
    (steps : ∀ phase name, pre phase (.identifier name) → phase.next (.identifier name) = phase') :
    walk.Quiet pre identifier fun _ => At phase' := by
  refine quiet_currentLexeme.bind fun word => ?_
  cases word with
  | identifier name =>
    exact Quiet.bind (quiet_known (steps · name) (by rintro ⟨⟩)) fun _ => Quiet.keep
  | _ => exact .unexpectedFor

/-! ## Nodes -/

/-- A node that is made of what is in hand. -/
theorem gathers_node {expr : Expr} {span : Span} (composed : expr.isComposed = true)
    (perm : held.Perm expr.children) : walk.Gathers pre held (node expr span) pre :=
  (quiet_spanFrom span).bind fun span => Covers.give
    ((Ledger.leads_of_perm perm).trans (Ledger.leads_node span composed)) fun _ _ holds => holds

/-- A node over another region. -/
theorem gathers_nodeAgain (inner : Node) (span : Span) :
    walk.Gathers pre [inner] (node inner.expr span) pre := by
  obtain ⟨expr, region⟩ := inner
  exact (quiet_spanFrom span).bind fun span =>
    Covers.give (fun _ _ _ => walk.ledger.respan span) fun _ _ holds => holds

/-- A node without others below it. -/
theorem gathers_leaf {expr : Expr} {span : Span} (composed : expr.isComposed = true)
    (noChildren : expr.children = []) : walk.Gathers pre [] (pure (⟨expr, span⟩ : Node)) pre := by
  have leads := @Ledger.leads_node walk.ledger expr span composed
  rw [noChildren] at leads
  exact Covers.give leads fun _ _ holds => holds

theorem gathers_newFunction {params : List Param} {body : Node} {native : Bool}
    {name : Option Symbol} {span : Span} :
    walk.Gathers pre [body] (do
      let id ← newFunction
      node (.func id params body native name) span) pre :=
  fun parser _ row stage holds => ⟨row,
    ⟨stage.trail.aside parser.expected (parser.functions + 1) parser.tokens.store, stage.signed,
      stage.kept.1, walk.ledger.function params native name _ stage.kept.2⟩, holds⟩

/-! ## Lists -/

/-- An item more, in front of those that were found. -/
theorem perm_cons [Carrier α] (next : α) (found : List α) :
    (nodes found ++ nodes next).Perm (nodes (next :: found)) :=
  List.perm_append_comm

theorem perm_reverse [Carrier α] (found : List α) : (nodes found).Perm (nodes found.reverse) :=
  (List.reverse_perm found).symm.flatMap_right nodes

section

variable {item : ParseM α} {gives : α → List Node} {result : α → Prop} {mid : Here}
  {first last : Phase}
  (ofItem : walk.Covers (At first) [] item gives fun value phase here => result value ∧ mid phase here)
  (comma : ∀ phase, mid phase (.punctuation .comma) → phase.next (.punctuation .comma) = first)

include ofItem comma

theorem covers_commaItems (bound : Nat) (found : List α) (known : ∀ value ∈ found, result value) :
    walk.Covers (At first) (found.flatMap gives) (commaItems item bound found)
      (List.flatMap gives) fun values phase here =>
        (∀ value ∈ values, result value) ∧ mid phase here := by
  induction bound generalizing found with
  | zero => exact .unexpected
  | succ bound ih =>
    refine ofItem.bind fun next => .fact fun own => (quiet_accept rfl comma).bind fun another => ?_
    have more : (found.flatMap gives ++ gives next).Perm ((next :: found).flatMap gives) :=
      List.perm_append_comm
    have all : ∀ value ∈ next :: found, result value := List.forall_mem_cons.mpr ⟨own, known⟩
    cases another with
    | true => exact (ih _ all).lead (Ledger.leads_of_perm more)
    | false =>
      exact .give (Ledger.leads_of_perm (more.trans ((List.reverse_perm _).symm.flatMap_right gives)))
        fun _ _ holds => ⟨fun value member => all value (List.mem_reverse.mp member), holds⟩

theorem covers_listUntil {close : Punctuation}
    (closes : ∀ phase, mid phase (.punctuation close) → phase.next (.punctuation close) = last)
    (empty : first.next (.punctuation close) = last) :
    walk.Covers (At first) [] (listUntil item close) (List.flatMap gives) fun values phase here =>
      (∀ value ∈ values, result value) ∧ At last phase here := by
  refine (quiet_accept rfl fun phase holds => (next_of_at phase holds).trans empty).bind
    fun found => ?_
  cases found with
  | true => exact .give (.refl []) fun _ _ holds => ⟨nofun, holds⟩
  | false =>
    refine Covers.bind (.bounded fun bound => covers_commaItems ofItem comma bound [] nofun)
      fun values => .fact fun known => (quiet_consume rfl closes).bind fun _ => ?_
    exact .give (.refl _) fun _ _ holds => ⟨known, holds⟩

end

section

variable [Carrier α] {item : ParseM α} {mid : Here} {first last : Phase}
  (ofItem : walk.Gathers (At first) [] item mid)
  (comma : ∀ phase, mid phase (.punctuation .comma) → phase.next (.punctuation .comma) = first)

include ofItem comma

theorem gathers_commaList : walk.Gathers (At first) [] (commaList item) mid :=
  .bounded fun bound => (covers_commaItems (ofItem.weaken fun _ _ _ holds => ⟨trivial, holds⟩) comma
    bound [] fun _ _ => trivial).weaken fun _ _ _ holds => holds.2

theorem gathers_listUntil {close : Punctuation}
    (closes : ∀ phase, mid phase (.punctuation close) → phase.next (.punctuation close) = last)
    (empty : first.next (.punctuation close) = last) :
    walk.Gathers (At first) [] (listUntil item close) (At last) :=
  (covers_listUntil (ofItem.weaken fun _ _ _ holds => ⟨trivial, holds⟩) comma closes empty).weaken
    fun _ _ _ holds => holds.2

end

theorem quiet_listUntil {item : ParseM α} {result : α → Prop} {mid : Here} {first last : Phase}
    {close : Punctuation}
    (ofItem : walk.Quiet (At first) item fun value phase here => result value ∧ mid phase here)
    (comma : ∀ phase, mid phase (.punctuation .comma) → phase.next (.punctuation .comma) = first)
    (closes : ∀ phase, mid phase (.punctuation close) → phase.next (.punctuation close) = last)
    (empty : first.next (.punctuation close) = last) :
    walk.Quiet (At first) (listUntil item close) fun values phase here =>
      (∀ value ∈ values, result value) ∧ At last phase here := by
  have listed := covers_listUntil ofItem comma closes empty
  rwa [show List.flatMap (fun _ : α => ([] : List Node)) = fun _ => [] from
    funext fun _ => List.flatMap_eq_nil_iff.mpr fun _ _ => rfl] at listed

/-! ## Literals -/

theorem quiet_checkRange {literal : Literal}
    (unsigned : ∀ phase, pre phase .magnitude → phase.signs = false) :
    walk.Quiet (Looking pre (.literal literal)) (checkRange literal) fun _ phase here =>
      (∀ n, literal = .integer n → n ≤ 536870911) ∧ Looking pre (.literal literal) phase here := by
  cases literal with
  | integer n =>
    unfold checkRange
    dsimp only
    split
    · refine quiet_currentSpan.bind fun _ _ _ _ stage holds => ⟨?_, _, stage.kept⟩
      exact .refused stage.trail stage.signed fun equal _ _ => unsigned _ (equal ▸ holds.1)
    · exact Quiet.give fun _ _ holds => ⟨fun n equal => by cases equal; omega, holds⟩
  | _ => exact Quiet.give fun _ _ holds => ⟨nofun, holds⟩

theorem quiet_literalValue {literal : Literal} (small : ∀ n, literal = .integer n → n ≤ 536870911) :
    walk.Quiet pre (literalValue literal) fun value phase here =>
      walk.ledger.Suits value ∧ pre phase here := by
  cases literal with
  | integer n =>
    have := small n rfl
    exact Quiet.give fun _ _ holds =>
      ⟨Ledger.suits_int (by unfold minInt; omega) (by unfold maxInt; omega), holds⟩
  | string text =>
    exact quiet_withStore (fun known => Store.harmless_makeString known text)
      fun _ => ⟨rfl, fun _ => rfl⟩
  | _ => exact Quiet.give fun _ _ holds => ⟨⟨rfl, fun _ => rfl⟩, holds⟩

/-- A literal that does not stand behind a sign. -/
theorem covers_literal {literal : Literal} {phase' : Phase} {rest : ParseM α}
    {gives : α → List Node} {post : α → Here}
    (unsigned : ∀ phase, pre phase .magnitude → phase.signs = false)
    (steps : ∀ phase, pre phase (.literal literal) → phase.next (.literal literal) = phase')
    (covers : (∀ n, literal = .integer n → n ≤ 536870911) →
      walk.Covers (At phase') [] rest gives post) :
    walk.Covers (Looking pre (.literal literal)) [] (do
      checkRange literal
      let _ ← advance
      rest) gives post := by
  refine (quiet_checkRange unsigned).bind fun _ => .fact fun small => ?_
  have other : Lexeme.literal literal ≠ .magnitude := fun equal =>
    absurd (small _ (Lexeme.literal.inj equal)) (by decide)
  exact (quiet_known steps other).bind fun _ => covers small

/-- The name and the colon of a class are consumed together or not at all. -/
theorem quiet_className? (phase behind : Phase)
    (name : ∀ name, phase.next (.identifier name) = behind)
    (colon : behind.next (.operator .colon) = phase) :
    walk.Quiet (At phase) className? fun _ => At phase := by
  refine quiet_atIdentifier.bind fun found => ?_
  cases found with
  | false => exact Quiet.keep
  | true =>
    refine fun parser => quiet_peekLexeme.bindFrom fun word middle run => ?_
    obtain ⟨token, present, seen⟩ : ∃ token, middle.lookahead = some token ∧ token.lexeme = word := by
      obtain ⟨token, _, -, ⟨⟩⟩ := run_bind_eq_ok run
      exact ⟨token, rfl, rfl⟩
    split
    · refine (quiet_identifier fun phase word holds =>
        (next_of_at phase holds).trans (name word)).bindFrom fun _ after run => ?_
      intro frame row stage holds
      have consumed : walk.Quiet (Looking (At behind) (.operator .colon)) advance fun _ => At phase :=
        quiet_mark rfl fun phase holds => (next_of_at phase holds).trans colon
      refine (consumed.bind fun _ => Quiet.keep) after frame row stage ⟨holds, ?_⟩
      rw [current_of_identifier present run, seen]
    · exact Quiet.keep middle

theorem quiet_slotName (phase behind : Phase)
    (name : ∀ name, phase.next (.identifier name) = behind) :
    walk.Quiet (At phase) slotName fun _ => At (behind.next (.operator .colon)) :=
  (quiet_identifier fun phase word holds => (next_of_at phase holds).trans (name word)).bind
    fun _ => (quiet_consume rfl next_of_at).bind fun _ => Quiet.keep

theorem quiet_negativeNumber (depth : Nat) :
    walk.Quiet (At (.negating depth)) negativeNumber fun value phase here =>
      walk.ledger.Suits value ∧ At (.behindObject depth) phase here := by
  have read : walk.Quiet (At (.negating depth)) currentLexeme fun word phase here =>
      walk.ledger.Read word ∧ Looking (At (.negating depth)) word phase here :=
    fun _ _ row stage holds => ⟨row, stage, fun strict => (stage.kept.1 strict).1, holds, rfl⟩
  have consumed : ∀ literal, walk.Quiet (Looking (At (.negating depth)) (.literal literal)) advance
      fun _ => At (.behindObject depth) := by
    refine fun literal => quiet_advance ?_ fun _ holds => holds.1 ▸ rfl
    rintro _ _ ⟨rfl, rfl⟩
    rfl
  refine read.bind fun word => .fact fun read => ?_
  split
  · rename_i n
    refine (consumed _).bind fun _ => Quiet.give fun _ _ holds => ⟨⟨rfl, fun strict => ?_⟩, holds⟩
    have small : n ≤ 536870912 := read strict
    exact (Ledger.suits_int (by unfold minInt; omega) (by unfold maxInt; omega)).2 strict
  · exact (consumed _).bind fun _ => Quiet.give fun _ _ holds => ⟨⟨rfl, fun _ => rfl⟩, holds⟩
  · exact .unexpectedFor

section

variable {object : ParseM Value} {depth : Nat}
  (ofObject : walk.Quiet (At (.quoting (depth + 1))) object fun value phase here =>
    walk.ledger.Suits value ∧ At (.quoted depth) phase here)

include ofObject

theorem quiet_quotedArray :
    walk.Quiet (At (.quoting (depth + 1))) (quotedArray object) fun value phase here =>
      walk.ledger.Suits value ∧ At (.behindObject depth) phase here := by
  refine (quiet_className? _ (.quoted depth) (fun _ => rfl) rfl).bind fun className => ?_
  refine (quiet_listUntil ofObject next_of_at next_of_at rfl).bind fun elements => .fact fun suit => ?_
  have made : ∀ name, walk.Quiet (At (.behindObject depth)) (withStore (Store.makeArray name elements))
      fun value phase here => walk.ledger.Suits value ∧ At (.behindObject depth) phase here :=
    fun name => quiet_withStore (fun known => Store.harmless_makeArray known name elements) fun _ =>
      ⟨rfl, fun strict => by
        simp only [Store.makeArray, Value.fits, Value.allFit_eq, List.all_eq_true]
        exact fun value member => (suit value member).2 strict⟩
  cases className with
  | some name => exact Quiet.keep.bind fun _ => made name
  | none => exact (quiet_intern _).bind fun name => .fact fun _ => made name

theorem quiet_quotedFrame :
    walk.Quiet (At (.quoting (depth + 1))) (quotedFrame object) fun value phase here =>
      walk.ledger.Suits value ∧ At (.behindObject depth) phase here := by
  have slot : walk.Quiet (At (.quoting (depth + 1))) (do
      let name ← slotName
      return (name, ← object)) fun slot phase here =>
        walk.ledger.Suits slot.2 ∧ At (.quoted depth) phase here :=
    (quiet_slotName _ (.quoted depth) fun _ => rfl).bind fun name => ofObject.bind fun value =>
      Quiet.give fun _ _ holds => holds
  refine (quiet_listUntil slot next_of_at next_of_at rfl).bind fun slots => .fact fun suit => ?_
  refine quiet_withStore (fun known => Store.harmless_makeFrame known _ _) fun _ =>
    ⟨rfl, fun strict => ?_⟩
  simp only [Store.makeFrame, Value.fits, Value.allFit_eq, List.all_eq_true, List.forall_mem_map]
  exact fun slot member => (suit slot member).2 strict

end

theorem quiet_quoted (bound depth : Nat) :
    walk.Quiet (At (.quoting depth)) (quoted bound) fun value phase here =>
      walk.ledger.Suits value ∧ At (.behindObject depth) phase here := by
  induction bound generalizing depth with
  | zero => exact .unexpectedFor
  | succ bound ih =>
    have past : ∀ {word : Lexeme} {phase' : Phase}, word ≠ .magnitude →
        Phase.next (.quoting depth) word = phase' →
        walk.Quiet (Looking (At (.quoting depth)) word) advance fun _ => At phase' :=
      fun small steps => quiet_known (fun phase holds => (next_of_at phase holds).trans steps) small
    refine quiet_currentLexeme.bind fun here => ?_
    split
    · exact (past (by rintro ⟨⟩) rfl).bind fun _ => Quiet.give fun _ _ holds =>
        ⟨⟨rfl, fun _ => rfl⟩, holds⟩
    · exact (past (by rintro ⟨⟩) rfl).bind fun _ => (quiet_intern _).bind fun _ => Quiet.give
        fun _ _ holds => ⟨⟨rfl, fun _ => rfl⟩, holds.2⟩
    · refine covers_literal ?_ next_of_at quiet_literalValue
      rintro _ ⟨⟩
      rfl
    · exact (past (by rintro ⟨⟩) rfl).bind fun _ => ih depth
    · exact (past (by rintro ⟨⟩) rfl).bind fun _ => quiet_negativeNumber depth
    · exact (past (by rintro ⟨⟩) rfl).bind fun _ => quiet_quotedArray (ih (depth + 1))
    · exact (past (by rintro ⟨⟩) rfl).bind fun _ => quiet_quotedFrame (ih (depth + 1))
    · exact .unexpectedFor

/-! ## Operators -/

section

variable {ledger : Ledger}

theorem leads_apply (op : Waiting) (operands : List Node) :
    ledger.Leads operands (OperatorStacks.apply op operands) := by
  unfold OperatorStacks.apply
  split
  · rename_i op _ _ operand rest
    exact (@Ledger.leads_node ledger (.unary op operand) _ rfl).before rest
  · rename_i op _ rhs lhs rest
    have built : ledger.Leads [lhs, rhs] [op.node lhs rhs] := by
      cases op with
      | binary op => exact @Ledger.leads_node ledger (.binary op lhs rhs) _ rfl
      | logical op => exact @Ledger.leads_node ledger (.logical op lhs rhs) _ rfl
      | assign => exact @Ledger.leads_node ledger (.assign lhs rhs) _ rfl
    exact (Ledger.leads_of_perm (.swap lhs rhs rest)).trans (built.before rest)
  · exact .refl _

theorem leads_applyWhile (holds : Nat → Bool) (operands : List Node) (operators : List Waiting) :
    ledger.Leads operands (nodes (OperatorStacks.applyWhile holds operands operators)) := by
  induction operators generalizing operands with
  | nil => exact .refl _
  | cons op rest ih =>
    unfold OperatorStacks.applyWhile
    split
    · exact (leads_apply op operands).trans (ih _)
    · exact .refl _

theorem leads_pushExists (pending : OperatorStacks) (span : Span) :
    ledger.Leads (nodes pending) (nodes (pending.pushExists span)) := by
  obtain ⟨operands, operators⟩ := pending
  cases operands with
  | nil => exact .refl _
  | cons operand rest =>
    exact (@Ledger.leads_node ledger (.existsTest operand) _ rfl).before rest

end

/-- An expression is to come. -/
def Opens : Here :=
  fun phase _ => phase = .opening ∨ phase = .leaving

/-- An expression has ended. -/
def Closed : Here :=
  fun phase here =>
    phase = .ended ∨ phase = .named ∨ phase = .leaving ∧ here.startsExpression = false

/-- An operand is to come that is not just too large behind its sign. -/
def Starts : Here :=
  fun phase here => phase = .opening ∨ phase = .leaving ∨ phase = .signed ∧ here ≠ .magnitude

/-- What holds behind operators in front of an operand. -/
def Fronts : List Waiting → Here
  | .monadic .negate _ _ :: _ => At .signed
  | _ => Opens

theorem flat_of_closed {phase : Phase} {here : Lexeme} (closed : Closed phase here) :
    phase.isFlat = true := by
  rcases closed with rfl | rfl | ⟨rfl, -⟩ <;> rfl

theorem next_of_closed {word : Lexeme} (plain : word.isPlain = true) (phase : Phase)
    (closed : Closed phase word) : phase.next word = word.phase :=
  Phase.next_of_flat (flat_of_closed closed) plain

theorem next_of_starts {word : Lexeme} (plain : word.isPlain = true) (phase : Phase)
    (starts : Starts phase word) : phase.next word = word.phase := by
  refine Phase.next_of_flat ?_ plain
  rcases starts with rfl | rfl | ⟨rfl, -⟩ <;> rfl

theorem next_of_dyadic? {word : Lexeme} {entry : DyadicEntry} (found : word.dyadic? = some entry)
    (phase : Phase) (closed : Closed phase word) : phase.next word = .opening := by
  unfold Lexeme.dyadic? at found
  split at found <;> rcases closed with rfl | rfl | ⟨rfl, stays⟩ <;>
    first | rfl | exact absurd stays (by decide) | cases found

theorem quiet_monadicOperators (bound : Nat) (operators : List Waiting) :
    walk.Quiet (Fronts operators) (monadicOperators bound operators) Fronts := by
  induction bound generalizing operators with
  | zero => exact .unexpected
  | succ bound ih =>
    refine quiet_currentLexeme.bind fun word => ?_
    have awaits : ∀ {phase word}, Fronts operators phase word →
        phase = .opening ∨ phase = .leaving ∨ phase = .signed := by
      intro phase word fronts
      unfold Fronts at fronts
      split at fronts
      · exact .inr (.inr fronts)
      · exact fronts.imp_right .inl
    cases found : word.monadic? with
    | none => exact Quiet.give fun _ _ holds => holds.1
    | some entry =>
      unfold Lexeme.monadic? at found
      split at found
      · cases found
        refine (quiet_mark rfl fun phase fronts => ?_).bind fun _ =>
          (ih _).mono fun _ _ holds => holds
        rcases awaits fronts with rfl | rfl | rfl <;> rfl
      · cases found
        refine (quiet_mark rfl fun phase fronts => ?_).bind fun _ =>
          (ih _).mono fun _ _ => Or.inl
        rcases awaits fronts with rfl | rfl | rfl <;> rfl
      · cases found

theorem quiet_atMinMagnitude : walk.Quiet pre atMinMagnitude fun found phase here =>
    pre phase here ∧ (found = true ↔ here = .magnitude) := by
  refine quiet_currentLexeme.bind fun word => ?_
  split
  · refine Quiet.give fun phase here holds => ⟨holds.1, ?_⟩
    rw [holds.2, beq_iff_eq]
    exact ⟨fun equal => congrArg (Lexeme.literal ∘ Literal.integer) equal,
      fun equal => Literal.integer.inj (Lexeme.literal.inj equal)⟩
  · rename_i other
    exact Quiet.give fun phase here holds => ⟨holds.1, nofun, fun equal =>
      absurd (holds.2.symm.trans equal) (other _)⟩

theorem gathers_existsOperators (bound : Nat) (pending : OperatorStacks) :
    walk.Gathers Closed (nodes pending) (existsOperators bound pending) Closed := by
  induction bound generalizing pending with
  | zero => exact .unexpected
  | succ bound ih =>
    refine quiet_currentLexeme.bind fun word => ?_
    split
    · refine (quiet_mark rfl (next_of_closed rfl)).bind fun token => ?_
      refine ((ih _).mono fun _ _ => Or.inl).lead ?_
      exact (leads_applyWhile _ _ _).trans (leads_pushExists _ _)
    · exact (Gathers.give (.refl _)).mono fun _ _ holds => holds.1

section

variable {operand : ParseM Node} (ofOperand : walk.Gathers Starts [] operand Closed)

include ofOperand

theorem gathers_operandBehind (operators : List Waiting) :
    walk.Gathers (Fronts operators) [] (operandBehind operand operators) Closed := by
  have plain : ∀ operators : List Waiting, walk.Gathers Starts [] (do
      let found ← operand
      return (found, operators)) Closed :=
    fun operators => ofOperand.bind fun found => Gathers.give (.refl _)
  unfold operandBehind
  split
  · refine quiet_atMinMagnitude.bind fun found => ?_
    cases found with
    | true =>
      have consumed : walk.Quiet (fun phase here => At .signed phase here ∧
          (true = true ↔ here = .magnitude)) advance fun _ => At .ended := by
        refine quiet_advance ?_ fun phase holds => holds.1 ▸ rfl
        rintro phase here ⟨rfl, isMagnitude⟩
        rw [isMagnitude.mp rfl]
        rfl
      exact consumed.bind fun token => .give
        (Ledger.leads_literal _ (Ledger.suits_int (Int.le_refl _) (by decide))) fun _ _ => Or.inl
    | false =>
      refine (plain _).mono ?_
      rintro phase here ⟨fronts, isMagnitude⟩
      exact .inr (.inr ⟨fronts, fun equal => Bool.false_ne_true (isMagnitude.mpr equal)⟩)
  · rename_i other
    refine (plain _).mono fun phase here fronts => ?_
    unfold Fronts at fronts
    split at fronts
    · exact absurd rfl (other _ _ _)
    · exact fronts.imp_right .inl

theorem gathers_operations (bound : Nat) (pending : OperatorStacks) :
    walk.Gathers (Fronts pending.operators) (nodes pending) (operations operand bound pending)
      Closed := by
  induction bound generalizing pending with
  | zero => exact .unexpectedFor
  | succ bound ih =>
    refine Quiet.bind (.bounded fun bound => quiet_monadicOperators bound _) fun operators => ?_
    refine (gathers_operandBehind ofOperand operators).bind fun found => ?_
    have exists_ : walk.Gathers Closed (nodes pending ++ nodes found) (bounded fun bound =>
        existsOperators bound ⟨found.1 :: pending.operands, found.2⟩) Closed :=
      (Covers.bounded fun bound => gathers_existsOperators bound _).lead
        (Ledger.leads_of_perm List.perm_append_comm)
    refine exists_.andThen fun pending => quiet_currentLexeme.bind fun word => ?_
    cases found : word.dyadic? with
    | some entry =>
      have small : word ≠ .magnitude := by
        rintro rfl
        cases found
      exact (quiet_known (next_of_dyadic? found) small).bind fun _ =>
        ((ih _).mono fun _ _ => Or.inl).lead (leads_applyWhile _ _ _)
    | none =>
      cases result : pending.result? with
      | none => exact .unexpectedFor
      | some node =>
        refine .give ?_ fun _ _ holds => holds.1
        have applied : walk.ledger.Leads (nodes pending) _ :=
          leads_applyWhile (fun _ => true) pending.operands pending.operators
        unfold OperatorStacks.result? at result
        split at result
        · rename_i _ left
          cases result
          rwa [show nodes (OperatorStacks.applyWhile (fun _ => true) pending.operands
            pending.operators) = [node] from left] at applied
        · cases result

end

/-! ## Forms -/

theorem closed_of_ended (phase : Phase) (here : Lexeme) (ended : At .ended phase here) :
    Closed phase here :=
  .inl ended

/-- Between two expressions of a sequence, or behind the last one. -/
def Flat : Here :=
  fun phase _ => phase.isFlat = true

theorem next_of_flat {word : Lexeme} (plain : word.isPlain = true) (phase : Phase)
    (flat : Flat phase word) : phase.next word = word.phase :=
  Phase.next_of_flat flat plain

theorem quiet_name : walk.Quiet (At .opening) identifier fun _ => At .ended :=
  quiet_identifier fun phase _ => next_of_at phase

/-- The form that a word introduces. -/
abbrev Form (walk : Walk) (word : Lexeme) (form : ParseM Node) : Prop :=
  walk.Gathers (Looking Starts word) [] form Closed

/-- A form behind the word that introduces it. -/
theorem form_of_plain {word : Lexeme} (plain : word.isPlain = true) {rest : ParseM Node}
    (gathers : walk.Gathers (At word.phase) [] rest Closed) :
    walk.Form word (do
      let _ ← advance
      rest) :=
  (quiet_mark (Lexeme.mark_of_plain plain) (next_of_starts plain)).bind fun _ => gathers

section

variable {expr : ParseM Node} (ofExpr : walk.Gathers Opens [] expr Closed)

include ofExpr

theorem gathers_expr : walk.Gathers (At .opening) [] expr Closed :=
  ofExpr.mono fun _ _ => Or.inl

theorem gathers_arguments
    (steps : ∀ phase, pre phase (.punctuation .leftParen) →
      phase.next (.punctuation .leftParen) = .opening) :
    walk.Gathers pre [] (arguments expr) (At .ended) :=
  (quiet_consume rfl steps).bind fun _ =>
    gathers_listUntil (gathers_expr ofExpr) (next_of_closed rfl) (next_of_closed rfl) rfl

theorem gathers_optionalExpr : walk.Gathers (At .leaving) [] (optionalExpr expr) Closed := by
  refine quiet_currentLexeme.bind fun word => ?_
  cases starts : word.startsExpression with
  | true =>
    exact (ofExpr.mono fun _ _ holds => .inr holds.1).bind fun node => Gathers.give (.refl _)
  | false =>
    exact .give (.refl []) fun _ _ holds => .inr (.inr ⟨holds.1, holds.2 ▸ starts⟩)

theorem gathers_exprBehind {word : Lexeme} (plain : word.isPlain = true)
    (opens : word.phase = .opening) :
    walk.Gathers Closed [] (exprBehind expr word) Closed := by
  refine (quiet_accept (Lexeme.mark_of_plain plain) fun phase closed =>
    (next_of_closed plain phase closed).trans opens).bind fun present => ?_
  cases present with
  | true => exact (gathers_expr ofExpr).bind fun node => Gathers.give (.refl _)
  | false => exact Gathers.give (.refl _)

theorem gathers_pathKey : walk.Gathers (At .opening) [] (pathKey expr) (At .ended) := by
  refine (quiet_accept rfl next_of_at).bind fun computed => ?_
  cases computed with
  | true =>
    exact (gathers_expr ofExpr).bind fun node => (quiet_consume rfl (next_of_closed rfl)).bind
      fun _ => Gathers.give (.refl _)
  | false => exact quiet_name.bind fun _ => Gathers.give (.refl _)

theorem gathers_message : walk.Gathers (At .opening) [] (message expr) (At .ended) :=
  quiet_name.bind fun _ => (gathers_arguments ofExpr next_of_at).bind fun _ => Gathers.give (.refl _)

theorem gathers_accesses (bound : Nat) (object : Node) :
    walk.Gathers Closed [object] (accesses expr bound object) Closed := by
  induction bound generalizing object with
  | zero => exact .unexpected
  | succ bound ih =>
    have on : ∀ {held : List Node} {form : Expr}, form.isComposed = true →
        held.Perm form.children →
        walk.Gathers (At .ended) held (node form object.span >>= accesses expr bound) Closed :=
      fun composed perm => (gathers_node composed perm).andThen fun _ => (ih _).mono closed_of_ended
    have sends : ∀ ifDefined, walk.Gathers (At .opening) [object] (message expr >>= fun sent =>
        node (.send (some object) sent.1 sent.2 ifDefined) object.span >>=
          accesses expr bound) Closed := by
      refine fun ifDefined => (gathers_message ofExpr).bind fun sent => on rfl ?_
      rw [show nodes sent = sent.2 from nodes_list sent.2]
      exact List.perm_append_comm
    refine quiet_currentLexeme.bind fun word => ?_
    split
    · refine (quiet_mark rfl (next_of_closed rfl)).bind fun _ =>
        (gathers_pathKey ofExpr).bind fun key => on rfl ?_
      cases key <;> exact .refl _
    · exact (quiet_mark rfl (next_of_closed rfl)).bind fun _ => sends false
    · exact (quiet_mark rfl (next_of_closed rfl)).bind fun _ => sends true
    · exact (quiet_mark rfl (next_of_closed rfl)).bind fun _ => (gathers_expr ofExpr).bind
        fun position => (quiet_consume rfl (next_of_closed rfl)).bind fun _ => on rfl (.refl _)
    · exact (Gathers.give (.refl _)).mono fun _ _ holds => holds.1

theorem form_nameOrCall (name : Symbol) (span : Span) :
    walk.Form (.identifier name) (nameOrCall expr name span) := by
  have consumed : walk.Quiet (Looking Starts (.identifier name)) advance fun _ => At .ended := by
    refine quiet_known (fun phase starts => ?_) (by rintro ⟨⟩)
    rcases starts with rfl | rfl | ⟨rfl, -⟩ <;> rfl
  refine consumed.bind fun _ => quiet_currentLexeme.bind fun word => ?_
  split
  · exact (gathers_arguments ofExpr fun phase holds => next_of_at phase holds.1).bind fun args =>
      (gathers_node rfl (by rw [nodes_list]; exact .refl _)).mono closed_of_ended
  · exact (gathers_leaf rfl rfl).mono fun _ _ holds => .inl holds.1

theorem form_implicitSend {ifDefined : Bool} {word : Lexeme} (plain : word.isPlain = true)
    (opens : word.phase = .opening) (span : Span) :
    walk.Form word (implicitSend expr ifDefined span) := by
  refine form_of_plain plain ?_
  rw [opens]
  refine (gathers_message ofExpr).bind fun sent => (gathers_node rfl ?_).mono closed_of_ended
  rw [show nodes sent = sent.2 from nodes_list sent.2]
  exact List.perm_append_comm

theorem form_parenthesized (span : Span) :
    walk.Form (.punctuation .leftParen) (parenthesized expr span) := by
  refine Quiet.bind (quiet_mark rfl fun phase starts => ?_) fun _ => (gathers_expr ofExpr).bind
    fun inner => (quiet_consume rfl (next_of_closed rfl)).bind fun _ =>
      (gathers_nodeAgain inner span).mono closed_of_ended
  rcases starts with rfl | rfl | ⟨rfl, -⟩ <;> rfl

theorem form_arrayConstructor (span : Span) :
    walk.Form (.punctuation .leftBracket) (arrayConstructor expr span) := by
  refine form_of_plain rfl ((quiet_className? .opening .ended (fun _ => rfl) rfl).bind fun _ => ?_)
  exact (gathers_listUntil (gathers_expr ofExpr) (next_of_closed rfl) (next_of_closed rfl) rfl).bind
    fun _ => (gathers_node rfl (by rw [nodes_list]; exact .refl _)).mono closed_of_ended

theorem form_frameConstructor (span : Span) :
    walk.Form (.punctuation .leftBrace) (frameConstructor expr span) := by
  have slot : walk.Gathers (At .opening) [] (do
      let name ← slotName
      return (⟨name, ← expr⟩ : Slot)) Closed :=
    (quiet_slotName .opening .ended fun _ => rfl).bind fun _ => (gathers_expr ofExpr).bind fun _ =>
      Gathers.give (.refl _)
  refine form_of_plain rfl ?_
  exact (gathers_listUntil slot (next_of_closed rfl) (next_of_closed rfl) rfl).bind fun slots =>
    (gathers_node rfl (by rw [nodes_slots]; exact .refl _)).mono closed_of_ended

theorem gathers_exprSequence (ends : Keyword) :
    walk.Gathers (At .opening) [] (exprSequence expr ends) Flat := by
  have items : ∀ bound found,
      walk.Gathers (At .opening) (nodes found) (sequenceItems expr ends bound found) Flat := by
    intro bound
    induction bound with
    | zero => exact fun _ => .unexpected
    | succ bound ih =>
      refine fun found => quiet_currentLexeme.bind fun word => ?_
      cases word == .keyword ends with
      | true => exact (Gathers.give (perm_reverse found)).mono fun _ _ holds => holds.1 ▸ rfl
      | false =>
        refine ((gathers_expr ofExpr).mono fun _ _ holds => holds.1).bind fun item => ?_
        refine (quiet_accept rfl (next_of_closed rfl)).bind fun another => ?_
        cases another with
        | true => exact (ih _).lead (Ledger.leads_of_perm (perm_cons item found))
        | false =>
          exact (Gathers.give ((perm_cons item found).trans (perm_reverse _))).mono
            fun _ _ => flat_of_closed
  exact quiet_currentSpan.bind fun _ => Gathers.bind (.bounded fun bound => items bound []) fun _ =>
    (quiet_check rfl).bind fun _ =>
      (gathers_node rfl (by rw [nodes_list]; exact .refl _)).mono fun _ _ holds => holds.1

theorem form_begin (span : Span) : walk.Form (.keyword .kwBegin) (beginForm expr span) :=
  form_of_plain rfl ((gathers_exprSequence ofExpr _).bind fun body =>
    (quiet_consume rfl (next_of_flat rfl)).bind fun _ =>
      (gathers_nodeAgain body span).mono closed_of_ended)

theorem form_if (span : Span) : walk.Form (.keyword .kwIf) (ifForm expr span) := by
  refine form_of_plain rfl ((gathers_expr ofExpr).bind fun cond => ?_)
  refine (quiet_consume rfl (next_of_closed rfl)).bind fun _ => (gathers_expr ofExpr).bind
    fun thenBranch => (gathers_exprBehind ofExpr rfl rfl).bind fun elseBranch => gathers_node rfl ?_
  rw [nodes_option]
  exact .refl _

theorem gathers_handlers (bound : Nat) (found : List Handler) :
    walk.Gathers (fun phase here => Flat phase here ∧ (found.isEmpty = false → Closed phase here))
      (nodes found) (handlers expr bound found) Closed := by
  induction bound generalizing found with
  | zero => exact .unexpected
  | succ bound ih =>
    refine (quiet_check rfl).bind fun another => ?_
    cases more : another || found.isEmpty with
    | false =>
      rw [Bool.or_eq_false_iff] at more
      exact (Gathers.give (perm_reverse found)).mono fun _ _ holds => holds.1.2 more.2
    | true =>
      refine (quiet_consume rfl fun phase holds => next_of_flat rfl phase holds.1.1).bind fun _ => ?_
      refine (quiet_identifier fun phase _ => next_of_at phase).bind fun exception => ?_
      refine (quiet_accept rfl next_of_at).bind fun present => ?_
      have body : walk.Gathers (Sought (At .opening) .opening present) [] expr Closed := by
        cases present <;> exact gathers_expr ofExpr
      refine body.bind fun body => ((ih _).mono fun _ _ closed => ?_).lead
        (Ledger.leads_of_perm (perm_cons (⟨exception, body⟩ : Handler) found))
      exact ⟨flat_of_closed closed, fun _ => closed⟩

theorem form_try (span : Span) : walk.Form (.keyword .kwTry) (tryForm expr span) := by
  refine form_of_plain rfl ((gathers_exprSequence ofExpr _).bind fun body => ?_)
  refine Gathers.bind (.bounded fun bound => (gathers_handlers ofExpr bound []).mono
    fun _ _ flat => ⟨flat, by rintro ⟨⟩⟩) fun found => gathers_node rfl ?_
  rw [nodes_handlers]
  exact .refl _

theorem form_loop (span : Span) : walk.Form (.keyword .kwLoop) (loopForm expr span) :=
  form_of_plain rfl ((gathers_expr ofExpr).bind fun _ => gathers_node rfl (.refl _))

theorem form_while (span : Span) : walk.Form (.keyword .kwWhile) (whileForm expr span) :=
  form_of_plain rfl ((gathers_expr ofExpr).bind fun _ =>
    (quiet_consume rfl (next_of_closed rfl)).bind fun _ => (gathers_expr ofExpr).bind fun _ =>
      gathers_node rfl (.refl _))

theorem form_repeat (span : Span) : walk.Form (.keyword .kwRepeat) (repeatForm expr span) :=
  form_of_plain rfl ((gathers_exprSequence ofExpr _).bind fun _ =>
    (quiet_consume rfl (next_of_flat rfl)).bind fun _ => (gathers_expr ofExpr).bind fun _ =>
      gathers_node rfl (.refl _))

theorem form_for (span : Span) : walk.Form (.keyword .kwFor) (forForm expr span) := by
  refine form_of_plain rfl (quiet_name.bind fun var => (quiet_consume rfl next_of_at).bind fun _ => ?_)
  refine (gathers_expr ofExpr).bind fun first => (quiet_consume rfl (next_of_closed rfl)).bind
    fun _ => (gathers_expr ofExpr).bind fun limit => ?_
  refine (gathers_exprBehind ofExpr rfl rfl).bind fun step => ?_
  refine (quiet_consume rfl (next_of_closed rfl)).bind fun _ => (gathers_expr ofExpr).bind
    fun body => gathers_node rfl ?_
  rw [nodes_option]
  exact .refl _

theorem form_foreach (span : Span) : walk.Form (.keyword .kwForeach) (foreachForm expr span) := by
  have body : ∀ key value deeply (collection : Node) collect,
      walk.Gathers (At .opening) [collection] (do
        let body ← expr
        node (.foreachLoop key value deeply collection collect body) span) Closed :=
    fun _ _ _ _ _ => (gathers_expr ofExpr).bind fun _ => gathers_node rfl (.refl _)
  have behindNames : ∀ key value, walk.Gathers (At .ended) [] (do
      let deeply ← accept (.keyword .kwDeeply)
      consume (.keyword .kwIn)
      let collection ← expr
      let collect ← accept (.keyword .kwCollect)
      if !collect then
        consume (.keyword .kwDo)
      let body ← expr
      node (.foreachLoop key value deeply collection collect body) span) Closed := by
    intro key value
    refine (quiet_accept rfl next_of_at).bind fun deeply => ?_
    have inside : walk.Quiet (Sought (At .ended) .opening deeply) (consume (.keyword .kwIn))
        fun _ => At .opening := by
      cases deeply <;> exact quiet_consume rfl next_of_at
    refine inside.bind fun _ => (gathers_expr ofExpr).bind fun collection => ?_
    refine (quiet_accept rfl (next_of_closed rfl)).bind fun collect => ?_
    cases collect with
    | true => exact body _ _ _ _ _
    | false => exact (quiet_consume rfl (next_of_closed rfl)).bind fun _ => body _ _ _ _ _
  refine form_of_plain rfl (quiet_name.bind fun first => ?_)
  refine (quiet_accept rfl next_of_at).bind fun another => ?_
  cases another with
  | true => exact quiet_name.bind fun second => behindNames (some first) second
  | false => exact behindNames none first

omit ofExpr in
theorem quiet_annotation? {phase' : Phase}
    (steps : ∀ phase name, pre phase (.identifier name) → phase.next (.identifier name) = phase') :
    walk.Quiet pre annotation? fun _ phase here => pre phase here ∨ phase = phase' := by
  refine quiet_atIdentifier.bind fun found => ?_
  cases found with
  | false => exact Quiet.give fun _ _ => Or.inl
  | true =>
    refine quiet_peekLexeme.bind fun word => ?_
    cases word with
    | identifier _ => exact (quiet_identifier steps).bind fun _ => Quiet.give fun _ _ => Or.inr
    | _ => exact Quiet.give fun _ _ => Or.inl

theorem gathers_binding (constant : Bool) :
    walk.Gathers (At .opening) [] (binding expr constant) Closed := by
  have named : walk.Quiet (fun phase here => At .opening phase here ∨ phase = .ended) identifier
      fun _ => At .ended :=
    quiet_identifier (by rintro _ _ (rfl | rfl) <;> rfl)
  refine quiet_currentSpan.bind fun span => ?_
  refine (quiet_annotation? fun phase _ => next_of_at phase).bind fun type => named.bind fun name => ?_
  cases constant with
  | false =>
    refine ((gathers_exprBehind ofExpr rfl rfl).mono closed_of_ended).bind fun value =>
      (quiet_spanFrom _).bind fun _ => Gathers.give ?_
    rw [nodes_option]
    exact .refl _
  | true =>
    refine (quiet_consume rfl next_of_at).bind fun _ => (gathers_expr ofExpr).bind fun value => ?_
    change walk.Gathers Closed [value]
      (spanFrom span >>= fun span => pure (⟨name, type, some value, span⟩ : Binding)) Closed
    exact (quiet_spanFrom span).bind fun _ => Gathers.give (.refl _)

theorem form_declaration {word : Keyword} (opens : (Lexeme.keyword word).phase = .opening)
    (constant : Bool) (span : Span) :
    walk.Form (.keyword word) (declaration expr constant span) := by
  refine form_of_plain rfl ?_
  rw [opens]
  refine (gathers_commaList (gathers_binding ofExpr constant) (next_of_closed rfl)).bind
    fun bindings => ?_
  rw [nodes_bindings]
  cases constant <;> exact gathers_node rfl (.refl _)

theorem gathers_functionTail (native : Bool) (name : Option Symbol) (span : Span)
    (steps : ∀ phase, pre phase (.punctuation .leftParen) →
      phase.next (.punctuation .leftParen) = .heading) :
    walk.Gathers pre [] (functionTail expr native name span) Closed := by
  have ofParam : walk.Quiet (At .heading) param fun _ phase here => True ∧ At .heading phase here := by
    refine quiet_currentSpan.bind fun _ => ?_
    refine (quiet_annotation? fun phase _ => next_of_at phase).bind fun type => ?_
    refine Quiet.bind (quiet_identifier fun _ _ holds => ?_) fun _ => (quiet_spanFrom _).bind fun _ =>
      Quiet.give fun _ _ holds => ⟨trivial, holds⟩
    rcases holds with rfl | rfl <;> rfl
  refine (quiet_consume rfl steps).bind fun _ => ?_
  refine (quiet_listUntil ofParam next_of_at next_of_at rfl).bind fun _ => .fact fun _ => ?_
  exact (gathers_expr ofExpr).bind fun _ => gathers_newFunction

theorem form_func (span : Span) : walk.Form (.keyword .kwFunc) (funcForm expr span) := by
  refine form_of_plain rfl ((quiet_accept rfl next_of_at).bind fun native => ?_)
  cases native <;> exact gathers_functionTail ofExpr _ none span next_of_at

theorem form_global (span : Span) : walk.Form (.keyword .kwGlobal) (globalForm expr span) := by
  refine form_of_plain rfl ((quiet_identifier fun phase _ => next_of_at phase).bind fun name => ?_)
  refine (quiet_check rfl).bind fun function => ?_
  cases function with
  | true =>
    exact quiet_currentSpan.bind fun opening => (gathers_functionTail ofExpr false (some name) opening
      fun phase holds => next_of_at phase holds.1).bind fun _ => gathers_node rfl (.refl _)
  | false =>
    exact ((gathers_exprBehind ofExpr rfl rfl).mono fun _ _ holds => .inr (.inl holds.1)).bind
      fun value => gathers_node rfl (by rw [nodes_option]; exact .refl _)

theorem form_break (span : Span) : walk.Form (.keyword .kwBreak) (breakForm expr span) :=
  form_of_plain rfl ((gathers_optionalExpr ofExpr).bind fun _ =>
    gathers_node rfl (by rw [nodes_option]; exact .refl _))

theorem form_return (span : Span) : walk.Form (.keyword .kwReturn) (returnForm expr span) :=
  form_of_plain rfl ((gathers_optionalExpr ofExpr).bind fun _ =>
    gathers_node rfl (by rw [nodes_option]; exact .refl _))

theorem form_call (span : Span) : walk.Form (.keyword .kwCall) (callForm expr span) := by
  refine form_of_plain rfl ((gathers_expr ofExpr).bind fun function => ?_)
  refine (quiet_consume rfl (next_of_closed rfl)).bind fun _ =>
    (gathers_arguments ofExpr next_of_at).bind fun args =>
      (gathers_node rfl ?_).mono closed_of_ended
  rw [nodes_list]
  exact List.perm_append_comm

theorem form_inherited (span : Span) :
    walk.Form (.keyword .kwInherited) (inheritedForm expr span) := by
  refine form_of_plain rfl ((quiet_accept rfl next_of_at).bind fun ifDefined => ?_)
  have message : walk.Gathers (At .opening) []
      (message expr >>= fun sent => node (.resend sent.1 sent.2 ifDefined) span) Closed := by
    refine (gathers_message ofExpr).bind fun sent => (gathers_node rfl ?_).mono closed_of_ended
    rw [show nodes sent = sent.2 from nodes_list sent.2]
    exact .refl _
  cases ifDefined with
  | true => exact message
  | false => exact (quiet_consume rfl next_of_at).bind fun _ => message

theorem form_keyword (word : Keyword) (span : Span) :
    walk.Form (.keyword word) (keywordForm expr word span) := by
  unfold keywordForm
  split
  · exact form_of_plain rfl ((gathers_leaf rfl rfl).mono closed_of_ended)
  · exact form_if ofExpr span
  · exact form_while ofExpr span
  · exact form_repeat ofExpr span
  · exact form_for ofExpr span
  · exact form_foreach ofExpr span
  · exact form_try ofExpr span
  · exact form_global ofExpr span
  · exact form_func ofExpr span
  · exact form_loop ofExpr span
  · exact form_begin ofExpr span
  · exact form_declaration ofExpr rfl false span
  · exact form_declaration ofExpr rfl true span
  · exact form_break ofExpr span
  · exact form_return ofExpr span
  · exact form_call ofExpr span
  · exact form_inherited ofExpr span
  · exact .unexpectedFor

theorem gathers_primary : walk.Gathers Starts [] (primary expr) Closed := by
  refine quiet_currentSpan.bind fun span => quiet_currentLexeme.bind fun word => ?_
  split
  · refine covers_literal ?_ ?_ fun small => (quiet_literalValue small).bind fun _ => .fact fun suits =>
      .give (Ledger.leads_literal span suits) closed_of_ended
    · rintro phase (rfl | rfl | ⟨rfl, other⟩)
      · rfl
      · rfl
      · exact absurd rfl other
    · rintro phase (rfl | rfl | ⟨rfl, -⟩) <;> rfl
  · exact form_nameOrCall ofExpr _ span
  · exact form_keyword ofExpr _ span
  · exact form_parenthesized ofExpr span
  · exact form_arrayConstructor ofExpr span
  · exact form_frameConstructor ofExpr span
  · refine form_of_plain rfl (Quiet.bind (.bounded fun bound => quiet_quoted bound 0) fun _ =>
      .fact fun suits => (quiet_spanFrom _).bind fun _ =>
        .give (Ledger.leads_literal _ suits) closed_of_ended)
  · exact form_implicitSend ofExpr rfl rfl span
  · exact form_implicitSend ofExpr rfl rfl span
  · exact .unexpectedFor

theorem gathers_operand : walk.Gathers Starts [] (operand expr) Closed :=
  (gathers_primary ofExpr).bind fun object => .bounded fun bound =>
    gathers_accesses ofExpr bound object

end

/-! ## Programs -/

theorem gathers_expression (depth : Nat) : walk.Gathers Opens [] (expression depth) Closed := by
  induction depth with
  | zero => exact .unexpectedFor
  | succ depth ih => exact .bounded fun bound => gathers_operations (gathers_operand ih) bound {}

/-- In front of a command, or at the end of the text. -/
def Ready : Here :=
  fun phase here => phase = .opening ∨ here = .eof

theorem quiet_prime : walk.Quiet pre prime fun _ => pre := by
  intro parser frame row stage holds
  rw [prime_of_started (stage.trail.started.trans walk.begun)]
  exact ⟨row, stage, holds⟩

theorem quiet_skipSemicolons (bound : Nat) :
    walk.Quiet Ready (skipSemicolons bound) fun _ => Ready := by
  induction bound with
  | zero => exact .unexpected
  | succ bound ih =>
    have found : walk.Quiet Ready (accept (.punctuation .semicolon)) (Sought Ready .opening) :=
      quiet_accept rfl (by rintro phase (rfl | ⟨⟨⟩⟩); rfl)
    refine found.bind fun another => ?_
    cases another with
    | true => exact ih.mono fun _ _ => Or.inl
    | false => exact Quiet.keep

theorem gathers_nextCommand : walk.Gathers Ready [] nextCommand Ready := by
  refine quiet_prime.bind fun _ => Quiet.bind (.bounded quiet_skipSemicolons) fun _ => ?_
  refine quiet_currentLexeme.bind fun word => ?_
  have command : word ≠ .eof → walk.Gathers (Looking Ready word) [] (do
      let command ← bounded expression
      commandEnd command) Ready := by
    intro live
    have opens : ∀ phase here, Looking Ready word phase here → Opens phase here :=
      fun _ _ holds => .inl (holds.1.resolve_right fun eof => live (holds.2.symm.trans eof))
    refine Gathers.bind (Covers.mono (.bounded gathers_expression) opens) fun command => ?_
    refine (quiet_accept rfl (next_of_closed rfl)).bind fun ended => ?_
    cases ended with
    | true => exact .give (.refl _) fun _ _ => Or.inl
    | false =>
      refine (quiet_check rfl).bind fun last => ?_
      cases last with
      | true => exact .give (.refl _) fun _ _ holds => .inr (holds.2 rfl)
      | false => exact .unexpected
  cases word with
  | eof => exact .give (.refl _) fun _ _ holds => holds.1
  | _ => exact command (by rintro ⟨⟩)

theorem gathers_commands (bound : Nat) (found : List Node) :
    walk.Gathers Ready (nodes found) (commands bound found) Ready := by
  induction bound generalizing found with
  | zero => exact .unexpected
  | succ bound ih =>
    refine gathers_nextCommand.bind fun next => ?_
    cases next with
    | some command => exact (ih _).lead (Ledger.leads_of_perm (perm_cons command found))
    | none =>
      refine Gathers.give ?_
      rw [show nodes (none : Option Node) = [] from rfl, List.append_nil]
      exact perm_reverse found

theorem gathers_program : walk.Gathers Ready [] program Ready := by
  refine quiet_prime.bind fun _ => quiet_currentSpan.bind fun span => ?_
  refine Gathers.bind (.bounded fun bound => gathers_commands bound []) fun found => ?_
  cases found with
  | nil => exact gathers_leaf rfl rfl
  | cons command rest => exact gathers_node rfl (by rw [nodes_list]; exact .refl _)

end Walk

section

variable {α : Type} [Carrier α] {ledger : Ledger} {held : List Node} {parser : Parser} {post : Here}

/-- What a run that began at a word leaves in hand, and what it consumed. -/
theorem outcome_of_started {action : ParseM α}
    (gathers : ∀ walk : Walk, walk.Gathers Walk.Ready [] action post)
    (begun : parser.started = true) (holds : ledger.At held parser) : match action parser with
      | .ok value after => ledger.At (held ++ nodes value) after ∧
          ∃ row, Trail parser row after ∧ SignedOnly row
      | .error failure after => (∃ left, ledger.At left after) ∧ Stops parser failure after := by
  have stage : (Walk.mk ledger parser begun).Stage (held ++ []) [] parser :=
    ⟨.here, .nil, by rwa [List.append_nil]⟩
  have outcome := gathers _ parser held [] stage (.inl rfl)
  cases run : action parser with
  | ok value after =>
    rw [run] at outcome
    obtain ⟨row, stage, -⟩ := outcome
    exact ⟨stage.kept, row, stage.trail, stage.signed⟩
  | error failure after =>
    rw [run] at outcome
    exact outcome.symm

/-- The same when the first word may have to be read. -/
theorem outcome_of_gathers {rest : Unit → ParseM α}
    (gathers : ∀ walk : Walk, walk.Gathers Walk.Ready [] (prime >>= rest) post)
    (holds : ledger.At held parser) : match (prime >>= rest) parser with
      | .ok value after => ledger.At (held ++ nodes value) after ∧
          ∀ first, prime parser = .ok () first → ∃ row, Trail first row after ∧ SignedOnly row
      | .error failure after => (∃ left, ledger.At left after) ∧
          ∀ first, prime parser = .ok () first → Stops first failure after := by
  have kept := preserves_prime parser holds
  cases run : prime parser with
  | ok value first =>
    rw [run] at kept
    have begun := started_of_prime run
    have outcome := outcome_of_started gathers begun kept.1
    rw [run_bind_of_ok (prime_of_started begun)] at outcome
    rw [run_bind_of_ok run]
    cases ran : rest () first with
    | ok value after =>
      rw [ran] at outcome
      exact ⟨outcome.1, fun _ same => by cases same; exact outcome.2⟩
    | error failure after =>
      rw [ran] at outcome
      exact ⟨outcome.1, fun _ same => by cases same; exact outcome.2⟩
  | error failure after =>
    rw [run] at kept
    rw [run_bind_of_error run]
    exact ⟨⟨_, kept.1⟩, by rintro _ ⟨⟩⟩

end

/-! ## Behind failures -/

section

variable {α : Type} {ledger : Ledger} {held : List Node}

theorem at_after {action : ParseM α} {parser : Parser}
    (preserves : Preserves (ledger.At held) action) (holds : ledger.At held parser) :
    ledger.At held (after action parser) := by
  have kept := preserves parser holds
  unfold after
  cases run : action parser with
  | ok result parser =>
    rw [run] at kept
    exact kept.1
  | error failure parser =>
    rw [run] at kept
    exact kept.1

/-- Going on behind a failure keeps what is in hand. -/
theorem at_synchronize {parser : Parser} (holds : ledger.At held parser) :
    ledger.At held parser.synchronize := by
  have within : ∀ (bound : Nat) (parser : Parser), ledger.At held parser →
      ledger.At held (synchronizeWithin bound parser) := by
    intro bound
    induction bound with
    | zero => exact fun _ holds => holds
    | succ bound ih =>
      intro parser holds
      unfold synchronizeWithin
      split
      · split
        · exact holds
        · exact at_after preserves_advance holds
        · exact ih _ (at_after preserves_advance holds)
      · exact ih _ (at_after preserves_prime holds)
  exact within parser.bound parser holds

end

end Parser

end NewtonScript
