import NewtonScript.Emission.Variable
import NewtonScript.Scope.HiddenName

/-!
# Loops

The code around the parts of loops.  Every loop leaves one value at its exit:
`nil` when it ends by itself, or the value of the `break` that leaves it.  The
parts come as actions that emit them.
-/

namespace NewtonScript.Emission

/-- Begin a loop without breaks. -/
def openLoop : EmitM Unit :=
  modifyFunction fun function => { function with loops := [] :: function.loops }

/-- End the innermost loop: its breaks lead to the next instruction. -/
def patchBreaks : EmitM Unit := do
  let breaks := (← get).function.loops.headD []
  modifyFunction fun function => { function with loops := function.loops.tail }
  patchAllHere breaks.reverse

/-- Keep or drop the value of a loop. -/
def loopValue (discard : Bool) : EmitM Bool := do
  if discard then
    simple .pop
    return false
  else
    return true

/-- End the innermost loop and keep or drop its value. -/
def closeLoop (discard : Bool) : EmitM Bool := do
  patchBreaks
  loopValue discard

/-- Refuse a break that is in no loop. -/
def refuseOutsideLoop (span : Span) : EmitM Unit := do
  if (← get).function.loops.isEmpty then
    throw ⟨.breakOutsideLoop, span⟩

/-- Leave the innermost loop with the value on top of the stack. -/
def breakHere : EmitM Unit := do
  let site ← reserve .branch
  modifyFunction fun function =>
    match function.loops with
    | breaks :: outer => { function with loops := (site :: breaks) :: outer }
    | [] => function

/-- A loop that only a break leaves. -/
def endless (body : EmitM Unit) (discard : Bool) : EmitM Bool := do
  openLoop
  let top ← here
  body
  op .branch top
  closeLoop discard

/-- The code of a loop with its condition in front. -/
def whileLoop (cond body : EmitM Unit) (discard : Bool) : EmitM Bool := do
  openLoop
  let top ← here
  cond
  let exit ← reserve .branchIfFalse
  body
  op .branch top
  patchHere exit
  pushNil
  closeLoop discard

/-- The code of a loop with its condition at the end. -/
def repeatLoop (body cond : EmitM Unit) (discard : Bool) : EmitM Bool := do
  openLoop
  let top ← here
  body
  cond
  op .branchIfFalse top
  pushNil
  closeLoop discard

/-! ## Counting loops -/

/-- The variables of a counting loop. -/
structure ForSlots where
  index : Nat
  limit : Nat
  increment : Nat

/-- Find the variables of a counting loop. -/
def forSlots (var : Symbol) (span : Span) : EmitM ForSlots := do
  let index ← localSlot var span
  let limitName ← withStore (hiddenName [var] "limit")
  let incrementName ← withStore (hiddenName [var] "incr")
  let limit ← localSlot limitName span
  let increment ← localSlot incrementName span
  return { index, limit, increment }

/-- The code of a counting loop.  The index is stepped at the end of the body,
and the test stands behind it. -/
def forLoop (slots : ForSlots) (start limit step body : EmitM Unit) (discard : Bool) :
    EmitM Bool := do
  start
  setVar slots.index
  limit
  setVar slots.limit
  step
  setVar slots.increment
  openLoop
  getVar slots.increment
  getVar slots.index
  let toTest ← reserve .branch
  let top ← here
  body
  getVar slots.increment
  incrVar slots.index
  patchHere toTest
  getVar slots.limit
  op .branchIfLoopNotDone top
  pushNil
  closeLoop discard

/-! ## Loops over collections -/

/-- The slots in which the results of a loop are collected. -/
structure CollectSlots where
  index : Nat
  result : Nat
  /-- The value of the body, so that nothing stands below it while it runs. -/
  item : Nat

/-- The variables of a loop over a collection. -/
structure ForeachSlots where
  value : Nat
  key : Option Nat
  iterator : Nat
  collect : Option CollectSlots

/-- The slots in which a loop over a variable collects. -/
def collectSlots (value : Symbol) (span : Span) : EmitM CollectSlots := do
  let indexName ← withStore (hiddenName [value] "index")
  let resultName ← withStore (hiddenName [value] "result")
  let itemName ← withStore (hiddenName [value] "item")
  let index ← localSlot indexName span
  let result ← localSlot resultName span
  let item ← localSlot itemName span
  return { index, result, item }

/-- Find the variable for keys. -/
def keySlot (span : Span) : Option Symbol → EmitM (Option Nat)
  | some key => return some (← localSlot key span)
  | none => return none

/-- Find the variables of a loop over a collection. -/
def foreachSlots (key : Option Symbol) (value : Symbol) (collect : Bool) (span : Span) :
    EmitM ForeachSlots := do
  let valueSlot ← localSlot value span
  let key' ← keySlot span key
  let iteratorName ← withStore (iteratorName value key)
  let iterator ← localSlot iteratorName span
  if collect then
    return { value := valueSlot, key := key', iterator, collect := some (← collectSlots value span) }
  else
    return { value := valueSlot, key := key', iterator, collect := none }

/-- The operand with which `make-array` takes the size from the stack. -/
def growableArray : Nat := 0xFFFF

/-- Make the array for the results from the collection on top of the stack. -/
def startCollecting (slots : CollectSlots) : EmitM Unit := do
  simple .dup
  frequent .length
  pushSpelling "array"
  op .makeArray growableArray
  setVar slots.result
  pushInt 0
  setVar slots.index

/-- Put the value on top of the stack behind the results so far. -/
def collectItem (slots : CollectSlots) : EmitM Unit := do
  setVar slots.item
  getVar slots.result
  getVar slots.index
  getVar slots.item
  frequent .setAref
  simple .pop
  getVar slots.index
  pushInt 1
  frequent .add
  setVar slots.index

/-- Put a part of the current item into a variable: its key, 0, or its
value, 1. -/
def fetchPart (iterator : Nat) (part : Int) (slot : Nat) : EmitM Unit := do
  getVar iterator
  pushInt part
  frequent .aref
  setVar slot

/-- The code of a loop over a collection.  The body is emitted for its value
when results are collected, and for its effect otherwise.  The iterator is
released on every way out. -/
def foreachLoop (slots : ForeachSlots) (deeply : Bool) (collection : EmitM Unit)
    (body : Bool → EmitM Unit) (discard : Bool) : EmitM Bool := do
  collection
  match slots.collect with
  | some collect => startCollecting collect
  | none => pure ()
  pushValue (if deeply then .truth else .nil)
  frequent .newIterator
  setVar slots.iterator
  openLoop
  let toTest ← reserve .branch
  let top ← here
  fetchPart slots.iterator 1 slots.value
  match slots.key with
  | some key => fetchPart slots.iterator 0 key
  | none => pure ()
  match slots.collect with
  | some collect =>
      body false
      collectItem collect
  | none => body true
  getVar slots.iterator
  simple .iterNext
  patchHere toTest
  getVar slots.iterator
  simple .iterDone
  op .branchIfFalse top
  match slots.collect with
  | some collect => getVar collect.result
  | none => pushNil
  patchBreaks
  pushNil
  setVar slots.iterator
  loopValue discard

end NewtonScript.Emission
