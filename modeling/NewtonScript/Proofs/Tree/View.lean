import NewtonScript.Tree.Parser.Operators

/-!
# Trees as they are seen

The same words can be read at different places, with names in other spellings,
and from other stores.  A view says what becomes of names, of the values of
literals, of regions and of the numbers of function literals.  What is read
twice matches when the first reading, as it is seen, is the second one up to
names and values.
-/

namespace NewtonScript

/-! ## Values -/

/-- A slot map with its names renamed. -/
def FrameMap.renamed (rename : Symbol → Symbol) (map : FrameMap) : FrameMap :=
  { map with slots := map.slots.map rename }

/-- Debug names that are renamed. -/
def DebugNames.renamed (rename : Symbol → Symbol) (debug : DebugNames) : DebugNames :=
  ⟨debug.name.map rename, debug.args.map rename, debug.locals.map rename⟩

mutual

/-- A value with its names renamed. -/
def Value.renamed (rename : Symbol → Symbol) : Value → Value
  | .symbol name => .symbol (rename name)
  | .array id className elements =>
    .array id (rename className) (Value.renamedAll rename elements)
  | .frame id shape values => .frame id (shape.renamed rename) (Value.renamedAll rename values)
  | .map shape => .map (shape.renamed rename)
  | .block id body => .block id (CodeBlock.renamed rename body)
  | value => value

/-- Values with their names renamed. -/
def Value.renamedAll (rename : Symbol → Symbol) : List Value → List Value
  | [] => []
  | value :: rest => value.renamed rename :: Value.renamedAll rename rest

/-- A value with its names renamed, if there is one. -/
def Value.renamedIn (rename : Symbol → Symbol) : Option Value → Option Value
  | none => none
  | some value => some (value.renamed rename)

/-- Literals with their names renamed, if there are any. -/
def CodeBlock.renamedLiterals (rename : Symbol → Symbol) : Option (List Value) → Option (List Value)
  | none => none
  | some literals => some (Value.renamedAll rename literals)

/-- A code block with its names renamed. -/
def CodeBlock.renamed (rename : Symbol → Symbol) : CodeBlock → CodeBlock
  | ⟨code, literals, numArgs, argFrame, debug, compat⟩ =>
    ⟨code, CodeBlock.renamedLiterals rename literals, numArgs, Value.renamedIn rename argFrame,
      debug.map (DebugNames.renamed rename), compat⟩

end

section

variable (rename : Symbol → Symbol)

@[simp]
theorem Value.renamedAll_eq (values : List Value) :
    renamedAll rename values = values.map (renamed rename) := by
  induction values with
  | nil => rfl
  | cons value rest ih => simp [renamedAll, ih]

@[simp]
theorem Value.renamedIn_eq (found : Option Value) :
    renamedIn rename found = found.map (renamed rename) := by
  cases found <;> rfl

@[simp]
theorem CodeBlock.renamedLiterals_eq (literals : Option (List Value)) :
    renamedLiterals rename literals = literals.map (List.map (Value.renamed rename)) := by
  cases literals <;> simp [renamedLiterals]

end

/-! ## Views -/

/-- What becomes of names, values, heap objects, regions and the numbers of
function literals.  How a value is seen depends only on how its parts are. -/
structure View where
  name : Symbol → Symbol
  value : Value → Value
  object : ObjectId → ObjectId
  span : Span → Span
  function : FuncId → FuncId
  join : ∀ first second, span (first.join second) = (span first).join (span second)
  next : ∀ id, function (id + 1) = function id + 1
  symbol : ∀ {first second}, name first = name second →
    value (.symbol first) = value (.symbol second)
  string : ∀ {id id'} (text : String), object id = object id' →
    value (.string id text) = value (.string id' text)
  array : ∀ {id id' className className' elements elements'}, object id = object id' →
    name className = name className' → elements.map value = elements'.map value →
      value (.array id className elements) = value (.array id' className' elements')
  frame : ∀ {id id' mapId mapId' slots slots' values values'}, object id = object id' →
    object mapId = object mapId' → slots.map name = slots'.map name →
      values.map value = values'.map value →
        value (.frame id ⟨mapId, slots, false⟩ values) =
          value (.frame id' ⟨mapId', slots', false⟩ values')

/-- The view without a change of place. -/
def View.here (view : View) : View :=
  { view with span := fun span => span, function := fun id => id, join := fun _ _ => rfl,
              next := fun _ => rfl }

@[simp]
theorem View.here_name (view : View) : view.here.name = view.name := rfl

@[simp]
theorem View.here_function (view : View) (id : FuncId) : view.here.function id = id := rfl

/-- The view in which only names are renamed. -/
abbrev View.names (rename : Symbol → Symbol) : View where
  name := rename
  value := Value.renamed rename
  object id := id
  span span := span
  function id := id
  join _ _ := rfl
  next _ := rfl
  symbol same := congrArg Value.symbol same
  string text same := congrArg (Value.string · text) same
  array number named same := by
    simp only [Value.renamed, Value.renamedAll_eq, named, same] at number ⊢
    rw [number]
  frame number mapNumber named same := by
    simp only [Value.renamed, Value.renamedAll_eq, FrameMap.renamed, named, same]
      at number mapNumber ⊢
    rw [number, mapNumber]

/-- The view in which everything stays. -/
abbrev View.same : View where
  name name := name
  value value := value
  object id := id
  span span := span
  function id := id
  join _ _ := rfl
  next _ := rfl
  symbol same := congrArg Value.symbol same
  string text same := congrArg (Value.string · text) same
  array number named same := by
    simp only [List.map_id'] at number named same ⊢
    rw [number, named, same]
  frame number mapNumber named same := by
    simp only [List.map_id'] at number mapNumber named same ⊢
    rw [number, mapNumber, named, same]

/-- What can be seen. -/
class Visible (α : Type) where
  seen : View → α → α

/-- The second reading is the first one as it is seen. -/
def Matches {α : Type} [Visible α] (view : View) (first second : α) : Prop :=
  Visible.seen view first = Visible.seen view.here second

/-! ## Trees -/

/-- A parameter as it is seen. -/
def Param.seen (view : View) (param : Param) : Param :=
  ⟨view.name param.name, param.type.map view.name, view.span param.span⟩

mutual

/-- A tree as it is seen. -/
def Node.seen (view : View) : Node → Node
  | ⟨expr, span⟩ => ⟨Expr.seen view expr, view.span span⟩

/-- An expression as it is seen. -/
def Expr.seen (view : View) : Expr → Expr
  | .literal value => .literal (view.value value)
  | .name name => .name (view.name name)
  | .selfRef => .selfRef
  | .begin items => .begin (Node.seenAll view items)
  | .unary op operand => .unary op (Node.seen view operand)
  | .binary op lhs rhs => .binary op (Node.seen view lhs) (Node.seen view rhs)
  | .logical op lhs rhs => .logical op (Node.seen view lhs) (Node.seen view rhs)
  | .existsTest operand => .existsTest (Node.seen view operand)
  | .path object (.slot name) => .path (Node.seen view object) (.slot (view.name name))
  | .path object (.computed key) =>
    .path (Node.seen view object) (.computed (Node.seen view key))
  | .index object position => .index (Node.seen view object) (Node.seen view position)
  | .assign target value => .assign (Node.seen view target) (Node.seen view value)
  | .localDecl bindings => .localDecl (Binding.seenAll view bindings)
  | .constantDecl bindings => .constantDecl (Binding.seenAll view bindings)
  | .globalVar name value => .globalVar (view.name name) (Node.seenIn view value)
  | .globalFunc name function => .globalFunc (view.name name) (Node.seen view function)
  | .func id params body native name =>
    .func (view.function id) (params.map (Param.seen view)) (Node.seen view body) native
      (name.map view.name)
  | .call name args => .call (view.name name) (Node.seenAll view args)
  | .invoke function args => .invoke (Node.seen view function) (Node.seenAll view args)
  | .send receiver message args ifDefined =>
    .send (Node.seenIn view receiver) (view.name message) (Node.seenAll view args) ifDefined
  | .resend message args ifDefined =>
    .resend (view.name message) (Node.seenAll view args) ifDefined
  | .ifThen cond thenBranch elseBranch =>
    .ifThen (Node.seen view cond) (Node.seen view thenBranch) (Node.seenIn view elseBranch)
  | .loop body => .loop (Node.seen view body)
  | .whileLoop cond body => .whileLoop (Node.seen view cond) (Node.seen view body)
  | .repeatLoop body cond => .repeatLoop (Node.seen view body) (Node.seen view cond)
  | .forLoop var start limit step body =>
    .forLoop (view.name var) (Node.seen view start) (Node.seen view limit)
      (Node.seenIn view step) (Node.seen view body)
  | .foreachLoop key value deeply collection collect body =>
    .foreachLoop (key.map view.name) (view.name value) deeply (Node.seen view collection)
      collect (Node.seen view body)
  | .tryCatch body handlers =>
    .tryCatch (Node.seen view body) (Handler.seenAll view handlers)
  | .breakLoop value => .breakLoop (Node.seenIn view value)
  | .returnValue value => .returnValue (Node.seenIn view value)
  | .makeArray className elements =>
    .makeArray (className.map view.name) (Node.seenAll view elements)
  | .makeFrame slots => .makeFrame (Slot.seenAll view slots)

/-- A node as it is seen, if there is one. -/
def Node.seenIn (view : View) : Option Node → Option Node
  | none => none
  | some node => some (Node.seen view node)

/-- Nodes as they are seen. -/
def Node.seenAll (view : View) : List Node → List Node
  | [] => []
  | node :: rest => Node.seen view node :: Node.seenAll view rest

/-- Declared names as they are seen. -/
def Binding.seenAll (view : View) : List Binding → List Binding
  | [] => []
  | ⟨name, type, value, span⟩ :: rest =>
    ⟨view.name name, type.map view.name, Node.seenIn view value, view.span span⟩ ::
      Binding.seenAll view rest

/-- Handlers as they are seen. -/
def Handler.seenAll (view : View) : List Handler → List Handler
  | [] => []
  | ⟨exception, body⟩ :: rest =>
    ⟨view.name exception, Node.seen view body⟩ :: Handler.seenAll view rest

/-- Slots as they are seen. -/
def Slot.seenAll (view : View) : List Slot → List Slot
  | [] => []
  | ⟨name, value⟩ :: rest =>
    ⟨view.name name, Node.seen view value⟩ :: Slot.seenAll view rest

end

/-- The key of a path as it is seen. -/
def PathKey.seen (view : View) : PathKey → PathKey
  | .slot name => .slot (view.name name)
  | .computed key => .computed (key.seen view)

/-- A declared name as it is seen. -/
def Binding.seen (view : View) (binding : Binding) : Binding :=
  ⟨view.name binding.name, binding.type.map view.name, binding.value.map (Node.seen view),
    view.span binding.span⟩

/-- A handler as it is seen. -/
def Handler.seen (view : View) (handler : Handler) : Handler :=
  ⟨view.name handler.exception, handler.body.seen view⟩

/-- A slot as it is seen. -/
def Slot.seen (view : View) (slot : Slot) : Slot :=
  ⟨view.name slot.name, slot.value.seen view⟩

section

variable (view : View)

@[simp]
theorem Expr.seen_path (object : Node) (key : PathKey) :
    seen view (.path object key) = .path (object.seen view) (key.seen view) := by
  cases key <;> rfl

@[simp]
theorem Node.seenIn_eq (found : Option Node) :
    seenIn view found = found.map (seen view) := by
  cases found <;> rfl

@[simp]
theorem Node.seenAll_eq (nodes : List Node) :
    seenAll view nodes = nodes.map (seen view) := by
  induction nodes with
  | nil => rfl
  | cons node rest ih => simp [seenAll, ih]

@[simp]
theorem Binding.seenAll_eq (bindings : List Binding) :
    seenAll view bindings = bindings.map (seen view) := by
  induction bindings with
  | nil => rfl
  | cons binding rest ih =>
    obtain ⟨name, type, value, span⟩ := binding
    simp [seenAll, seen, ih]

@[simp]
theorem Handler.seenAll_eq (handlers : List Handler) :
    seenAll view handlers = handlers.map (seen view) := by
  induction handlers with
  | nil => rfl
  | cons handler rest ih =>
    obtain ⟨exception, body⟩ := handler
    simp [seenAll, seen, ih]

@[simp]
theorem Slot.seenAll_eq (slots : List Slot) :
    seenAll view slots = slots.map (seen view) := by
  induction slots with
  | nil => rfl
  | cons slot rest ih =>
    obtain ⟨name, value⟩ := slot
    simp [seenAll, seen, ih]

end

/-! ## What is read -/

instance : Visible Unit := ⟨fun _ => id⟩

instance : Visible Bool := ⟨fun _ => id⟩

instance : Visible Span := ⟨View.span⟩

instance : Visible Symbol := ⟨View.name⟩

instance : Visible Value := ⟨View.value⟩

instance : Visible Param := ⟨Param.seen⟩

instance : Visible Node := ⟨Node.seen⟩

instance : Visible PathKey := ⟨PathKey.seen⟩

instance : Visible Binding := ⟨Binding.seen⟩

instance : Visible Handler := ⟨Handler.seen⟩

instance : Visible Slot := ⟨Slot.seen⟩

instance {α : Type} [Visible α] : Visible (List α) := ⟨fun view => List.map (Visible.seen view)⟩

instance {α : Type} [Visible α] : Visible (Option α) :=
  ⟨fun view => Option.map (Visible.seen view)⟩

instance {α β : Type} [Visible α] [Visible β] : Visible (α × β) :=
  ⟨fun view => Prod.map (Visible.seen view) (Visible.seen view)⟩

/-! ## Matching -/

namespace Matches

section

variable {α β : Type} [Visible α] [Visible β] {view : View}

theorem nil : Matches view ([] : List α) [] := rfl

theorem cons {value value' : α} {rest rest' : List α} (head : Matches view value value')
    (tail : Matches view rest rest') : Matches view (value :: rest) (value' :: rest') := by
  change List.cons _ _ = List.cons _ _
  exact congr (congrArg List.cons head) tail

theorem reverse {values values' : List α} (same : Matches view values values') :
    Matches view values.reverse values'.reverse := by
  change values.reverse.map _ = values'.reverse.map _
  rw [List.map_reverse, List.map_reverse]
  exact congrArg List.reverse same

theorem isEmpty_eq {values values' : List α} (same : Matches view values values') :
    values'.isEmpty = values.isEmpty := by
  have same : values.map _ = values'.map _ := same
  simpa using (congrArg List.isEmpty same).symm

theorem nothing : Matches view (none : Option α) none := rfl

theorem some {value value' : α} (same : Matches view value value') :
    Matches view (some value) (some value') :=
  congrArg Option.some same

theorem pair {first first' : α} {second second' : β} (left : Matches view first first')
    (right : Matches view second second') : Matches view (first, second) (first', second') := by
  change Prod.mk _ _ = Prod.mk _ _
  exact congr (congrArg Prod.mk left) right

theorem fst {pair pair' : α × β} (same : Matches view pair pair') :
    Matches view pair.1 pair'.1 :=
  (Prod.mk.inj same).1

theorem snd {pair pair' : α × β} (same : Matches view pair pair') :
    Matches view pair.2 pair'.2 :=
  (Prod.mk.inj same).2

end

variable {view : View}

theorem flag {flag flag' : Bool} (same : Matches view flag flag') : flag = flag' := same

theorem region {span span' : Span} (same : Matches view span span') : span' = view.span span :=
  Eq.symm same

theorem symbol {name name' : Symbol} (same : Matches view name name') :
    view.name name = view.name name' := same

theorem symbol? {name name' : Option Symbol} (same : Matches view name name') :
    name.map view.name = name'.map view.name := same

theorem value {value value' : Value} (same : Matches view value value') :
    view.value value = view.value value' := same

theorem values {values values' : List Value} (same : Matches view values values') :
    values.map view.value = values'.map view.value := same

theorem node {node node' : Node} (same : Matches view node node') :
    node.seen view = node'.seen view.here := same

theorem node? {found found' : Option Node} (same : Matches view found found') :
    found.map (Node.seen view) = found'.map (Node.seen view.here) := same

theorem nodes {nodes nodes' : List Node} (same : Matches view nodes nodes') :
    nodes.map (Node.seen view) = nodes'.map (Node.seen view.here) := same

theorem of_expr {expr expr' : Expr} (same : expr.seen view = expr'.seen view.here)
    {span span' : Span} (placed : span' = view.span span) : Matches view (⟨expr, span⟩ : Node) ⟨expr', span'⟩ := by
  subst placed
  exact congrArg (Node.mk · (view.span span)) same

theorem span {node node' : Node} (same : Matches view node node') :
    node'.span = view.span node.span := by
  obtain ⟨expr, span⟩ := node
  obtain ⟨expr', span'⟩ := node'
  exact (congrArg Node.span same.node).symm

theorem expr {node node' : Node} (same : Matches view node node') :
    node.expr.seen view = node'.expr.seen view.here := by
  obtain ⟨expr, span⟩ := node
  obtain ⟨expr', span'⟩ := node'
  exact congrArg Node.expr same.node

theorem slot {name name' : Symbol} {value value' : Node} (named : Matches view name name')
    (same : Matches view value value') :
    Matches view (⟨name, value⟩ : Slot) ⟨name', value'⟩ := by
  change Slot.mk _ _ = Slot.mk _ _
  exact congr (congrArg Slot.mk named) same

theorem handler {name name' : Symbol} {body body' : Node} (named : Matches view name name')
    (same : Matches view body body') :
    Matches view (⟨name, body⟩ : Handler) ⟨name', body'⟩ := by
  change Handler.mk _ _ = Handler.mk _ _
  exact congr (congrArg Handler.mk named) same

theorem binding {name name' : Symbol} {type type' : Option Symbol} {value value' : Option Node}
    {span span' : Span} (named : Matches view name name') (typed : Matches view type type')
    (same : Matches view value value') (placed : Matches view span span') :
    Matches view (⟨name, type, value, span⟩ : Binding) ⟨name', type', value', span'⟩ := by
  change Binding.mk _ _ _ _ = Binding.mk _ _ _ _
  exact congr (congr (congr (congrArg Binding.mk named) typed) same) placed

theorem param {name name' : Symbol} {type type' : Option Symbol} {span span' : Span}
    (named : Matches view name name') (typed : Matches view type type')
    (placed : Matches view span span') :
    Matches view (⟨name, type, span⟩ : Param) ⟨name', type', span'⟩ := by
  change Param.mk _ _ _ = Param.mk _ _ _
  exact congr (congr (congrArg Param.mk named) typed) placed

end Matches

end NewtonScript
