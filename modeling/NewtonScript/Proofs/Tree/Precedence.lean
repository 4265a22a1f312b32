import NewtonScript.Tree.Parser
import NewtonScript.Proofs.Invariant

/-!
# What the operators bind

An expression that was read with two stacks is a tree of operators over the
operands that were read for it.  The tree is drawn here with the table's
entries in its nodes, so that its yield, from left to right, is what was
consumed, and so that the precedences of neighbouring operators can be
compared.

While the expression is read, the stacks are a row of frames, each an operator
with everything to the left of its last operand, and one tree on top of them.
An operator is applied to what its frame holds and to that tree, so the
operands are always there.
-/

namespace NewtonScript

/-- One word of an operator expression, an operand counting as one. -/
inductive OperatorItem where
  | atom (node : Node)
  | before (op : UnaryOp) (precedence : Nat) (span : Span)
  | between (entry : DyadicEntry)
  | behind (span : Span)

/-- An operator expression over operands that are not looked into: operators
stand before one operand or between two, and `exists` stands behind one. -/
inductive OperatorTree where
  | atom (node : Node)
  | before (op : UnaryOp) (precedence : Nat) (span : Span) (operand : OperatorTree)
  | between (entry : DyadicEntry) (lhs rhs : OperatorTree)
  | behind (operand : OperatorTree) (span : Span)

namespace OperatorTree

/-- The syntax tree. -/
def toNode : OperatorTree → Node
  | atom node => node
  | before op _ span operand => ⟨.unary op operand.toNode, span.join operand.toNode.span⟩
  | between entry lhs rhs => entry.op.node lhs.toNode rhs.toNode
  | behind operand span => ⟨.existsTest operand.toNode, operand.toNode.span.join span⟩

/-- The words of an expression from left to right. -/
def yield : OperatorTree → List OperatorItem
  | atom node => [.atom node]
  | before op precedence span operand => .before op precedence span :: operand.yield
  | between entry lhs rhs => lhs.yield ++ .between entry :: rhs.yield
  | behind operand span => operand.yield ++ [.behind span]

/-- The precedences of the operators that are open to the right, from the root
down.  An `exists` closes what it stands behind. -/
def rightSpine : OperatorTree → List Nat
  | atom _ => []
  | before _ precedence _ operand => precedence :: operand.rightSpine
  | between entry _ rhs => entry.precedence :: rhs.rightSpine
  | behind .. => []

/-- The precedence of an operator before or between operands at the root. -/
def precedence? : OperatorTree → Option Nat
  | before _ precedence _ _ => some precedence
  | between entry _ _ => some entry.precedence
  | _ => none

/-- The precedence of an operator between operands at the root. -/
def dyadicPrecedence? : OperatorTree → Option Nat
  | between entry _ _ => some entry.precedence
  | _ => none

/-- Whether `exists` is at the root. -/
def isExistence : OperatorTree → Bool
  | behind .. => true
  | _ => false

/-- Every operator has the operands that the precedences give it: what is open
at the end of a left operand binds more tightly, or as tightly when the
operator groups to the left; an operator between operands that is itself an
operand on the right binds more tightly, or as tightly when it is an assignment
in an assignment; and `exists` takes what binds more tightly than itself and
nothing else. -/
def Ordered : OperatorTree → Prop
  | atom _ => True
  | before _ precedence _ operand =>
    (∀ inner ∈ operand.dyadicPrecedence?, precedence < inner) ∧
      (operand.isExistence → precedence ≤ existsPrecedence) ∧ operand.Ordered
  | between entry lhs rhs =>
    (∀ inner ∈ lhs.rightSpine,
        entry.precedence < inner ∨ entry.precedence = inner ∧ entry.op ≠ .assign) ∧
      (∀ inner ∈ rhs.dyadicPrecedence?,
        entry.precedence < inner ∨ entry.precedence = inner ∧ entry.op = .assign) ∧
      (rhs.isExistence → entry.precedence ≤ existsPrecedence) ∧ lhs.Ordered ∧ rhs.Ordered
  | behind operand _ =>
    (∀ inner ∈ operand.precedence?, existsPrecedence < inner) ∧ operand.Ordered

theorem precedence?_mem_rightSpine {tree : OperatorTree} {precedence : Nat}
    (root : precedence ∈ tree.precedence?) : precedence ∈ tree.rightSpine := by
  cases tree <;> simp_all [precedence?, rightSpine]

end OperatorTree

/-! ## What is consumed -/

namespace Parser

/-- One word of an operator expression is consumed. -/
inductive Consumes (operand : ParseM Node) : Parser → OperatorItem → Parser → Prop
  | atom {parser after : Parser} {node : Node} (read : operand parser = .ok node after) :
      Consumes operand parser (.atom node) after
  /-- A minus is part of the number when the magnitude of the smallest integer
  follows. -/
  | minimum {parser middle after : Parser} {minus number : Token}
      (sign : parser.current.lexeme = .operator .minus)
      (signRead : advance parser = .ok minus middle)
      (magnitude : middle.current.lexeme = .literal (.integer 536870912))
      (read : advance middle = .ok number after) :
      Consumes operand parser (.atom ⟨.literal (.int minInt), minus.span.join number.span⟩) after
  | before {parser after : Parser} {token : Token} {op : UnaryOp} {precedence : Nat}
      (word : parser.current.lexeme.monadic? = some (op, precedence))
      (read : advance parser = .ok token after) :
      Consumes operand parser (.before op precedence token.span) after
  | between {parser after : Parser} {token : Token} {entry : DyadicEntry}
      (word : parser.current.lexeme.dyadic? = some entry)
      (read : advance parser = .ok token after) :
      Consumes operand parser (.between entry) after
  | behind {parser after : Parser} {token : Token}
      (word : parser.current.lexeme = .keyword .kwExists)
      (read : advance parser = .ok token after) :
      Consumes operand parser (.behind token.span) after

/-- The words of an operator expression are consumed one after the other. -/
inductive ConsumesAll (operand : ParseM Node) (start : Parser) :
    List OperatorItem → Parser → Prop
  | nil : ConsumesAll operand start [] start
  | snoc {items : List OperatorItem} {item : OperatorItem} {parser after : Parser}
      (front : ConsumesAll operand start items parser) (last : Consumes operand parser item after) :
      ConsumesAll operand start (items ++ [item]) after

theorem ConsumesAll.last {operand : ParseM Node} {start after : Parser}
    {items : List OperatorItem} {item : OperatorItem}
    (all : ConsumesAll operand start (items ++ [item]) after) :
    ∃ parser, ConsumesAll operand start items parser ∧ Consumes operand parser item after := by
  generalize eq : items ++ [item] = read at all
  cases all with
  | nil => simp at eq
  | snoc front last =>
    obtain ⟨rfl, same⟩ := List.append_inj' eq rfl
    cases same
    exact ⟨_, front, last⟩

end Parser

/-! ## The table -/

namespace DyadicEntry

/-- An entry of the table. -/
def Listed (entry : DyadicEntry) : Prop :=
  ∃ lexeme : Lexeme, lexeme.dyadic? = some entry

theorem Listed.groupsRight_iff {entry : DyadicEntry} (listed : entry.Listed) :
    entry.groupsRight = true ↔ entry.op = .assign := by
  obtain ⟨lexeme, found⟩ := listed
  unfold Lexeme.dyadic? at found
  split at found <;> simp_all <;> subst found <;> simp

theorem Listed.precedence_eq_one_iff {entry : DyadicEntry} (listed : entry.Listed) :
    entry.precedence = 1 ↔ entry.op = .assign := by
  obtain ⟨lexeme, found⟩ := listed
  unfold Lexeme.dyadic? at found
  split at found <;> simp_all <;> subst found <;> simp

end DyadicEntry

theorem Lexeme.one_lt_of_monadic? {lexeme : Lexeme} {op : UnaryOp} {precedence : Nat}
    (found : lexeme.monadic? = some (op, precedence)) : 1 < precedence := by
  unfold Lexeme.monadic? at found
  split at found <;> simp_all <;> omega

/-! ## Frames -/

/-- An operator that waits for its last operand, with what stands before it. -/
inductive OperatorFrame where
  | before (op : UnaryOp) (precedence : Nat) (span : Span)
  | between (entry : DyadicEntry) (lhs : OperatorTree)

namespace OperatorFrame

variable {holds : Nat → Bool} {top : OperatorTree} {frame : OperatorFrame}
  {frames : List OperatorFrame}

/-- The waiting operator. -/
def waiting : OperatorFrame → Waiting
  | before op precedence span => .monadic op precedence span
  | between entry _ => .dyadic entry.op entry.precedence

/-- How tightly the operator binds. -/
def precedence : OperatorFrame → Nat
  | before _ precedence _ => precedence
  | between entry _ => entry.precedence

/-- The tree when the last operand is there. -/
def fill : OperatorFrame → OperatorTree → OperatorTree
  | before op precedence span, operand => .before op precedence span operand
  | between entry lhs, rhs => .between entry lhs rhs

/-- The operands that wait with a row of operators, the latest first. -/
def operands : List OperatorFrame → List Node
  | [] => []
  | before .. :: below => operands below
  | between _ lhs :: below => lhs.toNode :: operands below

/-- The words of a row of frames, the latest frame standing last. -/
def yield : List OperatorFrame → List OperatorItem
  | [] => []
  | before op precedence span :: below => yield below ++ [.before op precedence span]
  | between entry lhs :: below => yield below ++ (lhs.yield ++ [.between entry])

@[simp] theorem precedence_waiting (frame : OperatorFrame) :
    frame.waiting.precedence = frame.precedence := by
  cases frame <;> rfl

theorem rightSpine_fill (frame : OperatorFrame) (top : OperatorTree) :
    (frame.fill top).rightSpine = frame.precedence :: top.rightSpine := by
  cases frame <;> rfl

theorem yield_fill (frame : OperatorFrame) (below : List OperatorFrame) (top : OperatorTree) :
    yield below ++ (frame.fill top).yield = yield (frame :: below) ++ top.yield := by
  cases frame <;> simp [fill, yield, OperatorTree.yield]

/-- Fill frames while the precedence of their operator satisfies the
condition. -/
def fillWhile (holds : Nat → Bool) (top : OperatorTree) :
    List OperatorFrame → OperatorTree × List OperatorFrame
  | [] => (top, [])
  | frame :: below =>
    if holds frame.precedence then
      fillWhile holds (frame.fill top) below
    else
      (top, frame :: below)

theorem yield_fillWhile (holds : Nat → Bool) (top : OperatorTree) (frames : List OperatorFrame) :
    yield (fillWhile holds top frames).2 ++ (fillWhile holds top frames).1.yield =
      yield frames ++ top.yield := by
  induction frames generalizing top with
  | nil => rfl
  | cons frame below ih =>
    unfold fillWhile
    split
    · rw [ih, yield_fill]
    · rfl

theorem rightSpine_fillWhile (frames : List OperatorFrame)
    (known : ∀ inner ∈ top.rightSpine, holds inner = true) :
    ∀ inner ∈ (fillWhile holds top frames).1.rightSpine, holds inner = true := by
  induction frames generalizing top with
  | nil => exact known
  | cons frame below ih =>
    unfold fillWhile
    split
    · next filled =>
      refine ih ?_
      rw [rightSpine_fill]
      exact List.forall_mem_cons.2 ⟨filled, known⟩
    · exact known

theorem head_fillWhile (first : frame ∈ (fillWhile holds top frames).2.head?) :
    holds frame.precedence = false := by
  induction frames generalizing top with
  | nil => simp [fillWhile] at first
  | cons other below ih =>
    unfold fillWhile at first
    split at first
    · exact ih first
    · next kept =>
      simp only [List.head?_cons, Option.mem_some_iff] at first
      exact first ▸ Bool.eq_false_iff.2 kept

theorem fillWhile_true (top : OperatorTree) (frames : List OperatorFrame) :
    (fillWhile (fun _ => true) top frames).2 = [] := by
  induction frames generalizing top with
  | nil => rfl
  | cons frame below ih => exact ih (frame.fill top)

/-! ## Frames in order -/

/-- What a tree on top of a frame has to be for the frame to be filled with
it. -/
def Takes (frame : OperatorFrame) (top : OperatorTree) : Prop :=
  (∀ inner ∈ top.dyadicPrecedence?, frame.precedence < inner ∨
      frame.precedence = inner ∧ ∃ entry lhs, frame = between entry lhs ∧ entry.op = .assign) ∧
    (top.isExistence → frame.precedence ≤ existsPrecedence)

/-- A frame whose operator is in the table, and whose left operand the operator
may have. -/
def Sound : OperatorFrame → Prop
  | before _ precedence _ => 1 < precedence
  | between entry lhs =>
    entry.Listed ∧ lhs.Ordered ∧
      ∀ inner ∈ lhs.rightSpine,
        entry.precedence < inner ∨ entry.precedence = inner ∧ entry.op ≠ .assign

/-- A frame that may stand on another one: an operator between operands waits
only for what binds more tightly, or for an assignment when it is one. -/
def StandsOn : OperatorFrame → OperatorFrame → Prop
  | before .., _ => True
  | between entry _, lower =>
    lower.precedence < entry.precedence ∨
      lower.precedence = entry.precedence ∧ entry.op = .assign

/-- Sound frames, each on one that it may stand on. -/
def Settled : List OperatorFrame → Prop
  | [] => True
  | frame :: below => frame.Sound ∧ (∀ lower ∈ below.head?, frame.StandsOn lower) ∧ Settled below

/-- An operator as loose as an assignment is one. -/
theorem Sound.takes_of_standsOn {lower : OperatorFrame} {entry : DyadicEntry} {lhs : OperatorTree}
    (sound : lower.Sound) (listed : entry.Listed)
    (stands : StandsOn (between entry lhs) lower) (rhs : OperatorTree) :
    lower.Takes (.between entry lhs rhs) := by
  refine ⟨fun inner found => ?_, nofun⟩
  obtain rfl : entry.precedence = inner := by simpa [OperatorTree.dyadicPrecedence?] using found
  refine stands.imp id fun ⟨same, assign⟩ => ⟨same, ?_⟩
  have one : lower.precedence = 1 := same.trans (listed.precedence_eq_one_iff.2 assign)
  cases lower with
  | before op precedence span =>
    have : 1 < precedence := sound
    simp only [OperatorFrame.precedence] at one
    omega
  | between entry' lhs' => exact ⟨entry', lhs', rfl, sound.1.precedence_eq_one_iff.1 one⟩

theorem Sound.ordered_fill (sound : frame.Sound) (takes : frame.Takes top) (ordered : top.Ordered) :
    (frame.fill top).Ordered := by
  cases frame with
  | before op precedence span =>
    refine ⟨fun inner found => ?_, takes.2, ordered⟩
    obtain tighter | ⟨-, entry, lhs, eq, -⟩ := takes.1 inner found
    · exact tighter
    · cases eq
  | between entry lhs =>
    obtain ⟨-, left, spine⟩ := sound
    refine ⟨spine, fun inner found => ?_, takes.2, left, ordered⟩
    obtain tighter | ⟨same, entry', lhs', eq, assign⟩ := takes.1 inner found
    · exact .inl tighter
    · cases eq
      exact .inr ⟨same, assign⟩

/-- A tree on settled frames of which the latest can be filled with it. -/
structure Carries (frames : List OperatorFrame) (top : OperatorTree) : Prop where
  settled : Settled frames
  ordered : top.Ordered
  takes : ∀ frame ∈ frames.head?, frame.Takes top

theorem Carries.fill {below : List OperatorFrame} (carries : Carries (frame :: below) top) :
    Carries below (frame.fill top) := by
  obtain ⟨⟨sound, stands, settled⟩, ordered, takes⟩ := carries
  refine ⟨settled, sound.ordered_fill (takes frame rfl) ordered, fun lower first => ?_⟩
  cases frame with
  | before op precedence span =>
    exact ⟨nofun, nofun⟩
  | between entry lhs =>
    have lowerSound : lower.Sound := by
      cases below with
      | nil => cases first
      | cons other rest => cases first; exact settled.1
    exact lowerSound.takes_of_standsOn sound.1 (stands lower first) top

theorem Carries.fillWhile (carries : Carries frames top) :
    Carries (fillWhile holds top frames).2 (OperatorFrame.fillWhile holds top frames).1 := by
  induction frames generalizing top with
  | nil => exact carries
  | cons frame below ih =>
    unfold OperatorFrame.fillWhile
    split
    · exact ih carries.fill
    · exact carries

/-- An operand is taken by every frame. -/
theorem Settled.carries_atom (settled : Settled frames) (node : Node) :
    Carries frames (.atom node) :=
  ⟨settled, trivial, fun _ _ => ⟨nofun, nofun⟩⟩

/-- Behind what binds more tightly, `exists` is taken by every frame that is
left. -/
theorem Carries.behind (carries : Carries frames top)
    (tighter : ∀ inner ∈ top.rightSpine, existsPrecedence < inner)
    (looser : ∀ frame ∈ frames.head?, frame.precedence ≤ existsPrecedence) (span : Span) :
    Carries frames (.behind top span) :=
  ⟨carries.settled,
    ⟨fun inner root => tighter inner (OperatorTree.precedence?_mem_rightSpine root),
      carries.ordered⟩,
    fun frame first => ⟨nofun, fun _ => looser frame first⟩⟩

/-- An operator that applied what it does not wait for stands on what is
left. -/
theorem Carries.push {entry : DyadicEntry} (carries : Carries frames top) (listed : entry.Listed)
    (tighter : ∀ inner ∈ top.rightSpine,
      entry.precedence < inner ∨ inner = entry.precedence ∧ entry.groupsRight = false)
    (looser : ∀ frame ∈ frames.head?, ¬(entry.precedence < frame.precedence ∨
      frame.precedence = entry.precedence ∧ entry.groupsRight = false)) :
    Settled (.between entry top :: frames) := by
  refine ⟨⟨listed, carries.ordered, fun inner found => ?_⟩, fun lower first => ?_, carries.settled⟩
  · refine (tighter inner found).imp id fun ⟨same, left⟩ => ⟨same.symm, fun assign => ?_⟩
    exact absurd (listed.groupsRight_iff.2 assign) (by simp [left])
  · have kept := looser lower first
    by_cases right : entry.groupsRight = true
    · have := listed.groupsRight_iff.1 right
      simp only [right, Bool.true_eq_false, and_false, or_false] at kept
      exact (Nat.lt_or_eq_of_le (Nat.le_of_not_lt kept)).imp id fun same => ⟨same, this⟩
    · simp only [right, and_true] at kept
      exact .inl (by omega)

end OperatorFrame

/-! ## Where operands are missing -/

/-- What to do where the operands of an operator are not there, or where more
than one tree is left. -/
structure Fallback where
  apply : Waiting → List Node → List Node
  behind : List Waiting → Span → OperatorStacks
  finish : OperatorStacks → Parser.ParseM Node

namespace OperatorStacks

variable (fallback : Fallback)

/-- Apply an operator to the operands on top, if they are there. -/
def applyOr : Waiting → List Node → List Node
  | .monadic op _ span, operand :: rest => ⟨.unary op operand, span.join operand.span⟩ :: rest
  | .dyadic op _, rhs :: lhs :: rest => op.node lhs rhs :: rest
  | op, operands => fallback.apply op operands

/-- Apply waiting operators while their precedence satisfies the condition. -/
def applyWhileOr (holds : Nat → Bool) (operands : List Node) : List Waiting → OperatorStacks
  | [] => ⟨operands, []⟩
  | op :: rest =>
    if holds op.precedence then
      applyWhileOr holds (applyOr fallback op operands) rest
    else
      ⟨operands, op :: rest⟩

/-- Put `exists` behind the operand on top, if it is there. -/
def pushExistsOr (pending : OperatorStacks) (span : Span) : OperatorStacks :=
  match pending.operands with
  | operand :: rest =>
    { pending with operands := ⟨.existsTest operand, operand.span.join span⟩ :: rest }
  | [] => fallback.behind pending.operators span

/-- The stacks of a row of frames and the tree on top of them. -/
def ofFrames (frames : List OperatorFrame) (top : OperatorTree) : OperatorStacks :=
  ⟨top.toNode :: OperatorFrame.operands frames, frames.map OperatorFrame.waiting⟩

theorem applyOr_waiting (frame : OperatorFrame) (below : List OperatorFrame) (top : OperatorTree) :
    applyOr fallback frame.waiting (top.toNode :: OperatorFrame.operands (frame :: below)) =
      (frame.fill top).toNode :: OperatorFrame.operands below := by
  cases frame <;> rfl

/-- On a row of frames, every operator finds its operands. -/
theorem applyWhileOr_ofFrames (holds : Nat → Bool) (frames : List OperatorFrame)
    (top : OperatorTree) :
    applyWhileOr fallback holds (ofFrames frames top).operands (ofFrames frames top).operators =
      ofFrames (OperatorFrame.fillWhile holds top frames).2
        (OperatorFrame.fillWhile holds top frames).1 := by
  induction frames generalizing top with
  | nil => rfl
  | cons frame below ih =>
    simp only [ofFrames, List.map_cons, applyWhileOr, OperatorFrame.precedence_waiting,
      OperatorFrame.fillWhile, applyOr_waiting]
    split
    · exact ih (frame.fill top)
    · rfl

/-- An operator without operands leaves the stacks as they are. -/
def keepStacks : Fallback where
  apply _ operands := operands
  behind operators _ := ⟨[], operators⟩
  finish _ := Parser.unexpectedFor .expression

theorem applyOr_keepStacks (op : Waiting) (operands : List Node) :
    applyOr keepStacks op operands = apply op operands := by
  cases op <;> rcases operands with - | ⟨-, - | ⟨-, -⟩⟩ <;> rfl

theorem applyWhile_ofFrames (holds : Nat → Bool) (frames : List OperatorFrame)
    (top : OperatorTree) :
    applyWhile holds (ofFrames frames top).operands (ofFrames frames top).operators =
      ofFrames (OperatorFrame.fillWhile holds top frames).2
        (OperatorFrame.fillWhile holds top frames).1 := by
  rw [← applyWhileOr_ofFrames keepStacks]
  generalize (ofFrames frames top).operands = operands
  generalize (ofFrames frames top).operators = operators
  induction operators generalizing operands with
  | nil => rfl
  | cons op rest ih => simp only [applyWhile, applyWhileOr, applyOr_keepStacks, ih]

end OperatorStacks

namespace Parser

variable (fallback : Fallback)

/-- Consume every `exists` behind an operand. -/
def existsOperatorsOr : Nat → OperatorStacks → ParseM OperatorStacks
  | 0, _ => unexpected
  | bound + 1, pending => do
    match ← currentLexeme with
    | .keyword .kwExists =>
      let pending := OperatorStacks.applyWhileOr fallback
        (fun precedence => existsPrecedence < precedence) pending.operands pending.operators
      let token ← advance
      existsOperatorsOr bound (pending.pushExistsOr fallback token.span)
    | _ => return pending

/-- Operands with the operators around them. -/
def operationsOr (operand : ParseM Node) : Nat → OperatorStacks → ParseM Node
  | 0, _ => unexpectedFor .expression
  | bound + 1, pending => do
    let operators ← bounded fun bound => monadicOperators bound pending.operators
    let (found, operators) ← operandBehind operand operators
    let pending ← bounded fun bound =>
      existsOperatorsOr fallback bound ⟨found :: pending.operands, operators⟩
    match (← currentLexeme).dyadic? with
    | some entry =>
      let pending := OperatorStacks.applyWhileOr fallback
        (fun precedence =>
          entry.precedence < precedence || (precedence == entry.precedence && !entry.groupsRight))
        pending.operands pending.operators
      let _ ← advance
      operationsOr operand bound (pending.push (.dyadic entry.op entry.precedence))
    | none =>
      let left := OperatorStacks.applyWhileOr fallback (fun _ => true) pending.operands
        pending.operators
      match left.operands with
      | [node] => return node
      | _ => fallback.finish left

/-- An expression, nested at most this deep, with other behaviour wherever an
operator does not find its operands. -/
def expressionOr : Nat → ParseM Node
  | 0 => unexpectedFor .expression
  | depth + 1 => bounded fun bound =>
    operationsOr fallback (operand (expressionOr depth)) bound {}

end Parser

/-! ## Reading with frames -/

/-- Behind an action, only what follows its successes matters. -/
theorem run_bind_congr_of_ok {ε σ α β : Type} {action : EStateM ε σ α}
    {next next' : α → EStateM ε σ β} {state : σ}
    (same : ∀ value middle, action state = .ok value middle →
      next value middle = next' value middle) :
    (action >>= next) state = (action >>= next') state := by
  change EStateM.bind action next state = EStateM.bind action next' state
  unfold EStateM.bind
  cases run : action state with
  | ok value middle => exact same value middle run
  | error failure middle => rfl

namespace Parser

open OperatorStacks OperatorFrame

section Frames

variable {bound : Nat} {node : Node} {token : Token} {parser after start : Parser}
  {top : OperatorTree} {frames : List OperatorFrame} {operand : ParseM Node}

/-- Settled frames that hold what was consumed. -/
structure Waits (operand : ParseM Node) (start : Parser) (frames : List OperatorFrame)
    (parser : Parser) : Prop where
  settled : Settled frames
  consumed : ConsumesAll operand start (yield frames) parser

/-- Settled frames and a tree on top of them that hold what was consumed. -/
structure Stacks (operand : ParseM Node) (start : Parser) (frames : List OperatorFrame)
    (top : OperatorTree) (parser : Parser) : Prop where
  carries : Carries frames top
  consumed : ConsumesAll operand start (yield frames ++ top.yield) parser

theorem Waits.before {op : UnaryOp} {precedence : Nat} (waits : Waits operand start frames parser)
    (word : parser.current.lexeme.monadic? = some (op, precedence))
    (read : advance parser = .ok token after) :
    Waits operand start (.before op precedence token.span :: frames) after :=
  ⟨⟨Lexeme.one_lt_of_monadic? word, fun _ _ => trivial, waits.settled⟩,
    waits.consumed.snoc (.before word read)⟩

theorem Waits.atom (waits : Waits operand start frames parser)
    (read : operand parser = .ok node after) : Stacks operand start frames (.atom node) after :=
  ⟨waits.settled.carries_atom node, waits.consumed.snoc (.atom read)⟩

/-- The minus that was consumed last goes into the number. -/
theorem Waits.minimum {number : Token} {precedence : Nat} {span : Span}
    (waits : Waits operand start (.before .negate precedence span :: frames) parser)
    (magnitude : parser.current.lexeme = .literal (.integer 536870912))
    (read : advance parser = .ok number after) :
    Stacks operand start frames (.atom ⟨.literal (.int minInt), span.join number.span⟩) after := by
  obtain ⟨earlier, consumed, last⟩ := waits.consumed.last
  refine ⟨waits.settled.2.2.carries_atom _, consumed.snoc ?_⟩
  cases last with
  | before word signRead =>
    refine .minimum ?_ signRead magnitude read
    unfold Lexeme.monadic? at word
    split at word <;> simp_all

theorem Stacks.fillWhile (stacked : Stacks operand start frames top parser) (holds : Nat → Bool) :
    Stacks operand start (fillWhile holds top frames).2
      (fillWhile holds top frames).1 parser :=
  ⟨stacked.carries.fillWhile, by
    rw [yield_fillWhile]
    exact stacked.consumed⟩

/-- The frames and the tree when `exists` arrives. -/
abbrev existsFill (frames : List OperatorFrame) (top : OperatorTree) :
    OperatorTree × List OperatorFrame :=
  fillWhile (fun precedence => existsPrecedence < precedence) top frames

theorem Stacks.behind (stacked : Stacks operand start frames top parser)
    (closed : top.rightSpine = []) (word : parser.current.lexeme = .keyword .kwExists)
    (read : advance parser = .ok token after) :
    Stacks operand start (existsFill frames top).2 (.behind (existsFill frames top).1 token.span)
      after := by
  have filled := stacked.fillWhile fun precedence => existsPrecedence < precedence
  refine ⟨filled.carries.behind (fun inner found => ?_) (fun frame first => ?_) _, ?_⟩
  · simpa using rightSpine_fillWhile frames (by simp [closed]) inner found
  · simpa using head_fillWhile first
  · simpa [OperatorTree.yield] using filled.consumed.snoc (.behind word read)

/-- The frames and the tree when an operator between operands arrives. -/
abbrev dyadicFill (entry : DyadicEntry) (frames : List OperatorFrame) (top : OperatorTree) :
    OperatorTree × List OperatorFrame :=
  fillWhile
    (fun precedence =>
      entry.precedence < precedence || (precedence == entry.precedence && !entry.groupsRight))
    top frames

theorem Stacks.between {entry : DyadicEntry} (stacked : Stacks operand start frames top parser)
    (closed : top.rightSpine = []) (word : parser.current.lexeme.dyadic? = some entry)
    (read : advance parser = .ok token after) :
    Waits operand start
      (.between entry (dyadicFill entry frames top).1 :: (dyadicFill entry frames top).2) after := by
  have filled := stacked.fillWhile fun precedence =>
    entry.precedence < precedence || (precedence == entry.precedence && !entry.groupsRight)
  refine ⟨filled.carries.push ⟨_, word⟩ (fun inner found => ?_) (fun frame first => ?_), ?_⟩
  · simpa using rightSpine_fillWhile frames (by simp [closed]) inner found
  · simpa using head_fillWhile first
  · simpa [yield] using filled.consumed.snoc (.between word read)

/-! ### The steps of the engine -/

theorem currentLexeme_run (parser : Parser) :
    currentLexeme parser = .ok parser.current.lexeme parser :=
  rfl

theorem monadicOperators_frames (operand : ParseM Node) (start : Parser) {operators : List Waiting}
    (run : monadicOperators bound (frames.map waiting) parser = .ok operators after) :
    ∃ frames', operators = frames'.map waiting ∧
      OperatorFrame.operands frames' = OperatorFrame.operands frames ∧
        (Waits operand start frames parser → Waits operand start frames' after) := by
  induction bound generalizing frames parser with
  | zero => cases run
  | succ bound ih =>
    rw [monadicOperators, run_bind_of_ok (currentLexeme_run parser)] at run
    cases word : parser.current.lexeme.monadic? with
    | none =>
      rw [word] at run
      cases run
      exact ⟨frames, rfl, rfl, id⟩
    | some entry =>
      rw [word] at run
      obtain ⟨token, middle, read, run⟩ := run_bind_eq_ok run
      change monadicOperators bound
        ((.before entry.1 entry.2 token.span :: frames).map waiting) middle = _ at run
      obtain ⟨frames', same, operands, waits⟩ := ih run
      exact ⟨frames', same, operands, fun given => waits (given.before word read)⟩

theorem atMinMagnitude_run (parser : Parser) :
    ∃ found, atMinMagnitude parser = .ok found parser ∧
      (found = true → parser.current.lexeme = .literal (.integer 536870912)) := by
  rw [atMinMagnitude, run_bind_of_ok (currentLexeme_run parser)]
  generalize parser.current.lexeme = lexeme
  cases lexeme with
  | literal value =>
    cases value with
    | integer n => exact ⟨n == 536870912, rfl, fun found => by rw [beq_iff_eq.1 found]⟩
    | _ => exact ⟨false, rfl, nofun⟩
  | _ => exact ⟨false, rfl, nofun⟩

theorem operandBehind_frames (start : Parser) {operators : List Waiting}
    (run : operandBehind operand (frames.map waiting) parser = .ok (node, operators) after) :
    ∃ frames', operators = frames'.map waiting ∧
      OperatorFrame.operands frames' = OperatorFrame.operands frames ∧
        (Waits operand start frames parser →
          Stacks operand start frames' (.atom node) after) := by
  have plain (read : (do return (← operand, frames.map waiting) : ParseM _) parser =
      .ok (node, operators) after) :
      ∃ frames', operators = frames'.map waiting ∧
        OperatorFrame.operands frames' = OperatorFrame.operands frames ∧
          (Waits operand start frames parser →
            Stacks operand start frames' (.atom node) after) := by
    obtain ⟨found, middle, read, done⟩ := run_bind_eq_ok read
    cases done
    exact ⟨frames, rfl, rfl, fun waits => waits.atom read⟩
  match frames, run, plain with
  | .before .negate precedence span :: frames, run, plain =>
    obtain ⟨found, looked, magnitude⟩ := atMinMagnitude_run parser
    change (atMinMagnitude >>= _) parser = _ at run
    rw [run_bind_of_ok looked] at run
    cases found with
    | false => exact plain run
    | true =>
      obtain ⟨number, middle, read, done⟩ := run_bind_eq_ok run
      cases done
      exact ⟨frames, rfl, rfl, fun waits => waits.minimum (magnitude rfl) read⟩
  | .before .complement precedence span :: frames, run, plain => exact plain run
  | .between entry lhs :: frames, run, plain => exact plain run
  | [], run, plain => exact plain run

theorem pushExists_ofFrames (frames : List OperatorFrame) (top : OperatorTree) (span : Span) :
    (ofFrames frames top).pushExists span = ofFrames frames (.behind top span) :=
  rfl

theorem existsOperators_of_ne (other : parser.current.lexeme ≠ .keyword .kwExists) (bound : Nat)
    (pending : OperatorStacks) :
    existsOperators (bound + 1) pending parser = .ok pending parser := by
  rw [existsOperators, run_bind_of_ok (currentLexeme_run parser)]
  generalize parser.current.lexeme = lexeme at other
  cases lexeme with
  | keyword word =>
    cases word with
    | kwExists => exact absurd rfl other
    | _ => rfl
  | _ => rfl

theorem existsOperators_frames (operand : ParseM Node) (start : Parser) {pending : OperatorStacks}
    (closed : top.rightSpine = [])
    (run : existsOperators bound (ofFrames frames top) parser = .ok pending after) :
    ∃ frames' top', pending = ofFrames frames' top' ∧ top'.rightSpine = [] ∧
      (Stacks operand start frames top parser → Stacks operand start frames' top' after) := by
  induction bound generalizing frames top parser with
  | zero => cases run
  | succ bound ih =>
    by_cases word : parser.current.lexeme = .keyword .kwExists
    · rw [existsOperators, run_bind_of_ok (currentLexeme_run parser), word] at run
      obtain ⟨token, middle, read, run⟩ := run_bind_eq_ok run
      rw [applyExists, applyWhile_ofFrames, pushExists_ofFrames] at run
      obtain ⟨frames', top', same, closed', stacked⟩ := ih rfl run
      exact ⟨frames', top', same, closed', fun given => stacked (given.behind closed word read)⟩
    · rw [existsOperators_of_ne word] at run
      cases run
      exact ⟨frames, top, rfl, closed, id⟩

theorem existsOperatorsOr_ofFrames (fallback : Fallback) (bound : Nat)
    (frames : List OperatorFrame) (top : OperatorTree) :
    existsOperatorsOr fallback bound (ofFrames frames top) =
      existsOperators bound (ofFrames frames top) := by
  induction bound generalizing frames top with
  | zero => rfl
  | succ bound ih =>
    refine congrArg _ (funext fun lexeme => ?_)
    cases lexeme with
    | keyword word =>
      cases word with
      | kwExists =>
        simp only [applyExists, applyWhileOr_ofFrames, applyWhile_ofFrames]
        exact congrArg _ (funext fun _ => ih _ (.behind _ _))
      | _ => rfl
    | _ => rfl

/-- The stacks of a row of frames that wait for an operand. -/
def waitingStacks (frames : List OperatorFrame) : OperatorStacks :=
  ⟨OperatorFrame.operands frames, frames.map waiting⟩

/-- Operators in front of an operand, the operand, and `exists` behind it. -/
def operandAround (operand : ParseM Node) (pending : OperatorStacks) : ParseM OperatorStacks := do
  let operators ← bounded fun bound => monadicOperators bound pending.operators
  let (found, operators) ← operandBehind operand operators
  bounded fun bound => existsOperators bound ⟨found :: pending.operands, operators⟩

theorem operandAround_frames (start : Parser) {pending : OperatorStacks}
    (run : operandAround operand (waitingStacks frames) parser = .ok pending after) :
    ∃ frames' top, pending = ofFrames frames' top ∧ top.rightSpine = [] ∧
      (Waits operand start frames parser → Stacks operand start frames' top after) := by
  obtain ⟨operators, middle, signs, run⟩ := run_bind_eq_ok run
  obtain ⟨signed, rfl, left, waits⟩ := monadicOperators_frames operand start signs
  obtain ⟨⟨node, operators⟩, middle, read, run⟩ := run_bind_eq_ok run
  obtain ⟨taken, rfl, left', stacked⟩ := operandBehind_frames start read
  change existsOperators middle.bound
    ⟨node :: OperatorFrame.operands frames, taken.map waiting⟩ middle = _ at run
  rw [← left, ← left'] at run
  change existsOperators middle.bound (ofFrames taken (.atom node)) middle = _ at run
  obtain ⟨frames', top, same, closed, stacked'⟩ := existsOperators_frames operand start rfl run
  exact ⟨frames', top, same, closed, fun given => stacked' (stacked (waits given))⟩

theorem operations_succ (operand : ParseM Node) (bound : Nat) (pending : OperatorStacks) :
    operations operand (bound + 1) pending = (do
      let pending ← operandAround operand pending
      match (← currentLexeme).dyadic? with
      | some entry =>
        let _ ← advance
        operations operand bound ((pending.applyFor entry).push (.dyadic entry.op entry.precedence))
      | none =>
        match pending.result? with
        | some node => return node
        | none => unexpectedFor .expression) := by
  rw [operandAround, bind_assoc]
  refine bind_congr fun operators => Eq.trans ?_ (bind_assoc _ _ _).symm
  exact bind_congr fun found => rfl

theorem operationsOr_succ (fallback : Fallback) (operand : ParseM Node) (bound : Nat)
    (frames : List OperatorFrame) :
    operationsOr fallback operand (bound + 1) (waitingStacks frames) = (do
      let pending ← operandAround operand (waitingStacks frames)
      match (← currentLexeme).dyadic? with
      | some entry =>
        let _ ← advance
        operationsOr fallback operand bound
          ((applyWhileOr fallback
            (fun precedence => entry.precedence < precedence ||
              (precedence == entry.precedence && !entry.groupsRight))
            pending.operands pending.operators).push (.dyadic entry.op entry.precedence))
      | none =>
        let left := applyWhileOr fallback (fun _ => true) pending.operands pending.operators
        match left.operands with
        | [node] => return node
        | _ => fallback.finish left) := by
  funext parser
  simp only [operationsOr, operandAround, bind_assoc]
  refine run_bind_congr_of_ok fun operators middle signs => ?_
  obtain ⟨signed, rfl, left, -⟩ := monadicOperators_frames operand middle signs
  refine run_bind_congr_of_ok fun found after read => ?_
  obtain ⟨node, operators⟩ := found
  obtain ⟨taken, rfl, left', -⟩ := operandBehind_frames middle read
  refine run_bind_congr ?_ _
  change existsOperatorsOr fallback after.bound
    ⟨node :: OperatorFrame.operands frames, taken.map waiting⟩ after =
      existsOperators after.bound ⟨node :: OperatorFrame.operands frames, taken.map waiting⟩ after
  rw [← left, ← left']
  exact congrFun (existsOperatorsOr_ofFrames fallback after.bound taken (.atom node)) after

/-- The words that were consumed are those of one tree in order. -/
theorem ordered_of_operations (waits : Waits operand start frames parser)
    (run : operations operand bound (waitingStacks frames) parser = .ok node after) :
    ∃ tree : OperatorTree, tree.toNode = node ∧ tree.Ordered ∧
      ConsumesAll operand start tree.yield after := by
  induction bound generalizing frames parser with
  | zero => cases run
  | succ bound ih =>
    rw [operations_succ] at run
    obtain ⟨pending, middle, around, run⟩ := run_bind_eq_ok run
    obtain ⟨frames', top, rfl, closed, stacked⟩ := operandAround_frames start around
    have stacked := stacked waits
    rw [run_bind_of_ok (currentLexeme_run middle)] at run
    cases word : middle.current.lexeme.dyadic? with
    | some entry =>
      rw [word] at run
      obtain ⟨token, moved, read, run⟩ := run_bind_eq_ok run
      rw [applyFor, applyWhile_ofFrames] at run
      exact ih (stacked.between closed word read) run
    | none =>
      have filled := stacked.fillWhile fun _ => true
      rw [word] at run
      simp only [result?, applyWhile_ofFrames] at run
      rw [fillWhile_true] at filled run
      cases run
      exact ⟨_, rfl, filled.carries.ordered, filled.consumed⟩

/-- What happens where operands are missing makes no difference. -/
theorem operationsOr_waitingStacks (fallback : Fallback) (operand : ParseM Node) (bound : Nat)
    (frames : List OperatorFrame) :
    operationsOr fallback operand bound (waitingStacks frames) =
      operations operand bound (waitingStacks frames) := by
  induction bound generalizing frames with
  | zero => rfl
  | succ bound ih =>
    rw [operations_succ, operationsOr_succ]
    funext parser
    refine run_bind_congr_of_ok fun pending middle around => ?_
    obtain ⟨frames', top, rfl, -, -⟩ := operandAround_frames middle around
    rw [run_bind_of_ok (currentLexeme_run middle), run_bind_of_ok (currentLexeme_run middle)]
    cases middle.current.lexeme.dyadic? with
    | some entry =>
      refine run_bind_congr_of_ok fun token moved _ => ?_
      rw [applyFor, applyWhile_ofFrames, applyWhileOr_ofFrames]
      exact congrFun (ih (.between entry _ :: _)) moved
    | none =>
      simp only [result?, applyWhile_ofFrames, applyWhileOr_ofFrames]
      rw [fillWhile_true]
      rfl

end Frames

theorem expressionOr_eq (fallback : Fallback) (depth : Nat) :
    expressionOr fallback depth = expression depth := by
  induction depth with
  | zero => rfl
  | succ depth ih =>
    rw [expressionOr, ih]
    exact congrArg bounded (funext fun bound => operationsOr_waitingStacks fallback _ bound [])

/-- The words of an expression are those of a tree in which every operator has
the operands that the precedences give it, and no operator is ever applied
without its operands. -/
theorem expression_follows_precedence (depth : Nat) (parser : Parser) :
    (∀ node after, expression (depth + 1) parser = .ok node after →
      ∃ tree : OperatorTree, tree.toNode = node ∧
        ConsumesAll (operand (expression depth)) parser tree.yield after ∧ tree.Ordered) ∧
      ∀ fallback, expressionOr fallback (depth + 1) parser = expression (depth + 1) parser := by
  refine ⟨fun node after run => ?_, fun fallback => by rw [expressionOr_eq]⟩
  have begins : Waits (operand (expression depth)) parser [] parser := ⟨trivial, .nil⟩
  obtain ⟨tree, same, ordered, consumed⟩ := ordered_of_operations begins run
  exact ⟨tree, same, consumed, ordered⟩

/-- An assignment of an assignment, with all kinds of operators. -/
def nested : Parser :=
  after prime (.ofString "x := y := not -a * b - c - -536870912 < d exists exists or e" .empty)

theorem expression_follows_precedence_nested :
    ∃ node after, expression 2 nested = .ok node after ∧
      (∃ tree : OperatorTree, tree.toNode = node ∧
        ConsumesAll (operand (expression 1)) nested tree.yield after ∧ tree.Ordered) ∧
      ∀ fallback, expressionOr fallback 2 nested = .ok node after := by
  have readable : (match expression 2 nested with
      | .ok _ _ => true
      | .error _ _ => false) = true := by
    decide +kernel
  obtain ⟨ordered, same⟩ := expression_follows_precedence 1 nested
  cases run : expression 2 nested with
  | error failure after => simp [run] at readable
  | ok node after =>
    exact ⟨node, after, rfl, ordered node after run, fun fallback => (same fallback).trans run⟩

end Parser

end NewtonScript
