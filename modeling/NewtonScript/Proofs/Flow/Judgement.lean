import NewtonScript.Proofs.Code.Primitive

/-!
# The flow of structured code

A level says how many values are on the stack and how many handler tables are
installed.  The flow of a fragment leads from the level in front of it to the
level behind it, and says which level the loop around it was entered with.

A break may stand above operands that wait and inside handlers that are
installed.  Its mark counts both, so its own level is known from that of its
loop, whatever the code around it is.  Behind a break or a return nothing is
executed, and the level there is a matter of choice.
-/

namespace NewtonScript.Bytecode

/-- The number of values on the stack and of handler tables installed. -/
structure Level where
  depth : Nat
  handlers : Nat
deriving DecidableEq, Repr

/-- The level with one more value. -/
def Level.pushed (level : Level) : Level :=
  ⟨level.depth + 1, level.handlers⟩

/-- The level of a break with a mark, whose loop was entered at a level. -/
def Mark.levelAbove (mark : Mark) (loop : Level) : Level :=
  ⟨loop.depth + 1 + mark.operands, loop.handlers + mark.handlers⟩

/-- The number of values that a conditional branch takes. -/
def Opcode.taken? : Opcode → Option Nat
  | .branchIfTrue => some 1
  | .branchIfFalse => some 1
  | .branchIfLoopNotDone => some 3
  | _ => none

/-- What is known of the items of structured code, of its breaks and of its
returns. -/
structure Rules (α : Type) where
  /-- An item leads from one depth to another. -/
  Moves : α → Nat → Nat → Prop
  /-- An item directly behind another leads from one depth to another. -/
  Follows : α → α → Nat → Nat → Prop
  /-- Two items, one directly behind the other, lead from one depth to
  another. -/
  Couples : α → α → Nat → Nat → Prop
  Leaves : Mark → Prop
  Finishes : Nat → Prop

/-- Items raise the stack by one value at most, and each is known by itself. -/
structure Rules.Steady {α : Type} (rules : Rules α) : Prop where
  moves : ∀ item depth depth', rules.Moves item depth depth' → depth' ≤ depth + 1
  follows : ∀ first second depth depth', rules.Follows first second depth depth' →
    depth' ≤ depth + 1
  couples : ∀ first second depth depth', ¬rules.Couples first second depth depth'

namespace Fragment

/-- Alternatives of which there are a number. -/
inductive Splits {α : Type} : Nat → Fragment α → Prop where
  | last (code : Fragment α) : Splits 1 code
  | joined {count : Nat} {first rest : Fragment α} (behind : Splits (count + 1) rest) :
      Splits (count + 2) (.joined first rest)

/-- The flow of a fragment from one level to another, inside a loop that was
entered at a level. -/
inductive Flow {α : Type} (rules : Rules α) : Level → Fragment α → Level → Level → Prop where
  | empty (loop level : Level) : Flow rules loop .empty level level
  | plain {item : α} {depth depth' : Nat} (loop : Level) (handlers : Nat)
      (moves : rules.Moves item depth depth') :
      Flow rules loop (.plain item) ⟨depth, handlers⟩ ⟨depth', handlers⟩
  | pair {first second : α} {depth depth' : Nat} (loop : Level) (handlers : Nat)
      (moves : rules.Moves first depth (depth + 1))
      (follows : rules.Follows first second (depth + 1) depth') :
      Flow rules loop (.append (.plain first) (.plain second)) ⟨depth, handlers⟩ ⟨depth', handlers⟩
  | couple {loop after : Level} {first second : α} {rest : Fragment α}
      {depth depth' handlers : Nat} (couples : rules.Couples first second depth depth')
      (behind : Flow rules loop rest ⟨depth', handlers⟩ after) :
      Flow rules loop (.append (.plain first) (.append (.plain second) rest)) ⟨depth, handlers⟩
        after
  | append {loop before middle after : Level} {first second : Fragment α}
      (left : Flow rules loop first before middle) (right : Flow rules loop second middle after) :
      Flow rules loop (.append first second) before after
  | leave {mark : Mark} {depth : Nat} (loop : Level) (known : rules.Leaves mark)
      (low : depth ≤ loop.depth + 1 + mark.operands) :
      Flow rules loop (.leave mark) (mark.levelAbove loop) ⟨depth, loop.handlers + mark.handlers⟩
  | finish {operands depth : Nat} (loop : Level) (handlers : Nat)
      (known : rules.Finishes operands) (low : depth ≤ operands + 1) :
      Flow rules loop (.finish operands) ⟨operands + 1, handlers⟩ ⟨depth, handlers⟩
  | skip {loop : Level} {op : Opcode} {count depth handlers : Nat} {body : Fragment α}
      (takes : op.taken? = some count)
      (inner : Flow rules loop body ⟨depth, handlers⟩ ⟨depth, handlers⟩) :
      Flow rules loop (.skip op body) ⟨depth + count, handlers⟩ ⟨depth, handlers⟩
  | fork {loop after : Level} {op : Opcode} {count depth handlers : Nat} {yes no : Fragment α}
      (takes : op.taken? = some count) (left : Flow rules loop yes ⟨depth, handlers⟩ after)
      (right : Flow rules loop no ⟨depth, handlers⟩ after) :
      Flow rules loop (.fork op yes no) ⟨depth + count, handlers⟩ after
  | endless {loop level : Level} {depth : Nat} {body : Fragment α}
      (inner : Flow rules loop body level level) (low : depth ≤ level.depth + 1) :
      Flow rules loop (.back .branch body) level ⟨depth, level.handlers⟩
  | back {loop : Level} {op : Opcode} {count depth handlers : Nat} {body : Fragment α}
      (takes : op.taken? = some count)
      (inner : Flow rules loop body ⟨depth, handlers⟩ ⟨depth + count, handlers⟩) :
      Flow rules loop (.back op body) ⟨depth, handlers⟩ ⟨depth, handlers⟩
  | guarded {loop before : Level} {depth handlers : Nat} {test body : Fragment α}
      (left : Flow rules loop test before ⟨depth + 1, handlers⟩)
      (right : Flow rules loop body ⟨depth, handlers⟩ before) :
      Flow rules loop (.guarded test body) before ⟨depth, handlers⟩
  | entered {loop before : Level} {op : Opcode} {count depth handlers : Nat}
      {body test : Fragment α} (takes : op.taken? = some count)
      (left : Flow rules loop body ⟨depth, handlers⟩ before)
      (right : Flow rules loop test before ⟨depth + count, handlers⟩) (low : depth ≤ before.depth) :
      Flow rules loop (.entered op body test) before ⟨depth, handlers⟩
  | scope {level : Level} {body : Fragment α} (loop : Level)
      (inner : Flow rules level body level level.pushed) :
      Flow rules loop (.scope body) level level.pushed
  | joined {loop before after : Level} {first rest : Fragment α}
      (left : Flow rules loop first before after) (right : Flow rules loop rest before after) :
      Flow rules loop (.joined first rest) before after
  | handled {loop : Level} {names : List α} {depth depth' handlers : Nat}
      {body alternatives : Fragment α}
      (pushes : ∀ name ∈ names, ∀ depth, rules.Moves name depth (depth + 1))
      (splits : Splits names.length alternatives)
      (left : Flow rules loop body ⟨depth, handlers + 1⟩ ⟨depth', handlers + 1⟩)
      (right : Flow rules loop alternatives ⟨depth, handlers + 1⟩ ⟨depth', handlers + 1⟩) :
      Flow rules loop (.handled names body alternatives) ⟨depth, handlers⟩ ⟨depth', handlers⟩
  | unhandled {loop : Level} {depth depth' handlers : Nat} {body : Fragment α}
      (inner : Flow rules loop body ⟨depth, handlers + 1⟩ ⟨depth', handlers + 1⟩) :
      Flow rules loop (.handled [] body .empty) ⟨depth, handlers⟩ ⟨depth', handlers⟩

variable {α β : Type} {R : α → β → Prop}

theorem Rel.splits {count : Nat} {code : Fragment α} {code' : Fragment β}
    (splits : Splits count code) (related : Rel R code code') : Splits count code' := by
  induction splits generalizing code' with
  | last code => exact .last code'
  | joined _ ih =>
    cases related with
    | joined _ right => exact .joined (ih right)

theorem exists_related {names : List α} {names' : List β} (table : List.Forall₂ R names names')
    {name' : β} (member : name' ∈ names') : ∃ name ∈ names, R name name' := by
  induction table with
  | nil => cases member
  | cons head _ ih =>
    rcases List.mem_cons.mp member with rfl | inRest
    · exact ⟨_, List.mem_cons_self, head⟩
    · obtain ⟨name, inNames, same⟩ := ih inRest
      exact ⟨name, List.mem_cons_of_mem _ inNames, same⟩

/-- The flow of a fragment is that of any fragment whose items are related, if
the related items move as they do. -/
theorem Flow.transfer {rules : Rules α} {rules' : Rules β}
    (moves : ∀ item item' depth depth', R item item' →
      rules.Moves item depth depth' → rules'.Moves item' depth depth')
    (follows : ∀ first first' second second' depth depth', R first first' → R second second' →
      rules.Follows first second depth depth' → rules'.Follows first' second' depth depth')
    (couples : ∀ first first' second second' depth depth', R first first' → R second second' →
      rules.Couples first second depth depth' →
        ∃ middle, rules'.Moves first' depth middle ∧ rules'.Moves second' middle depth')
    (leaves : ∀ mark, rules.Leaves mark → rules'.Leaves mark)
    (finishes : ∀ operands, rules.Finishes operands → rules'.Finishes operands)
    {loop before after : Level} {code : Fragment α} {code' : Fragment β}
    (flow : Flow rules loop code before after) (related : Rel R code code') :
    Flow rules' loop code' before after := by
  induction flow generalizing code' with
  | empty loop level =>
    cases related
    exact .empty loop level
  | plain loop handlers move =>
    cases related with
    | plain same => exact .plain loop handlers (moves _ _ _ _ same move)
  | pair loop handlers move follow =>
    cases related with
    | append left right =>
      cases left with
      | plain first =>
        cases right with
        | plain second =>
          exact .pair loop handlers (moves _ _ _ _ first move)
            (follows _ _ _ _ _ _ first second follow)
  | couple known _ ih =>
    cases related with
    | append left right =>
      cases left with
      | plain first =>
        cases right with
        | append left rest =>
          cases left with
          | plain second =>
            obtain ⟨_, move, move'⟩ := couples _ _ _ _ _ _ first second known
            exact .append (.plain _ _ move) (.append (.plain _ _ move') (ih rest))
  | append _ _ leftHypothesis rightHypothesis =>
    cases related with
    | append left right => exact .append (leftHypothesis left) (rightHypothesis right)
  | leave loop known low =>
    cases related
    exact .leave loop (leaves _ known) low
  | finish loop handlers known low =>
    cases related
    exact .finish loop handlers (finishes _ known) low
  | skip takes _ ih =>
    cases related with
    | skip inner => exact .skip takes (ih inner)
  | fork takes _ _ leftHypothesis rightHypothesis =>
    cases related with
    | fork left right => exact .fork takes (leftHypothesis left) (rightHypothesis right)
  | endless _ low ih =>
    cases related with
    | back inner => exact .endless (ih inner) low
  | back takes _ ih =>
    cases related with
    | back inner => exact .back takes (ih inner)
  | guarded _ _ leftHypothesis rightHypothesis =>
    cases related with
    | guarded left right => exact .guarded (leftHypothesis left) (rightHypothesis right)
  | entered takes _ _ low leftHypothesis rightHypothesis =>
    cases related with
    | entered left right => exact .entered takes (leftHypothesis left) (rightHypothesis right) low
  | scope loop _ ih =>
    cases related with
    | scope inner => exact .scope loop (ih inner)
  | joined _ _ leftHypothesis rightHypothesis =>
    cases related with
    | joined left right => exact .joined (leftHypothesis left) (rightHypothesis right)
  | handled pushes splits _ _ leftHypothesis rightHypothesis =>
    cases related with
    | handled table left right =>
      refine .handled ?_ (table.length_eq ▸ right.splits splits) (leftHypothesis left)
        (rightHypothesis right)
      intro name' member depth
      obtain ⟨name, inNames, same⟩ := exists_related table member
      exact moves _ _ _ _ same (pushes name inNames depth)
  | unhandled _ ih =>
    cases related with
    | handled table left right =>
      cases table
      cases right
      exact .unhandled (ih left)

end Fragment

end NewtonScript.Bytecode
