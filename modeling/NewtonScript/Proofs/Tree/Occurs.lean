import NewtonScript.Tree

/-!
# Parts of trees

What occurs in a tree, the bodies of its function literals included.
-/

namespace NewtonScript

variable {expr : Expr} {node tree : Node}

/-- The parts of a tree, the bodies of its function literals included. -/
inductive Node.Occurs (tree : Node) : Node → Prop where
  | whole : Occurs tree tree
  | child {node child : Node} (outer : Occurs tree node) (member : child ∈ node.expr.children) :
      Occurs tree child
  | body {id : FuncId} {params : List Param} {inner : Node} {native : Bool}
      {name : Option Symbol} {span : Span}
      (outer : Occurs tree ⟨.func id params inner native name, span⟩) : Occurs tree inner

/-- The nodes directly below an expression, the body of a function literal
included. -/
def Expr.inside : Expr → List Node
  | .func _ _ body _ _ => [body]
  | expr => expr.children

/-- Whether an expression is a function literal. -/
def Expr.isFunction : Expr → Bool
  | .func .. => true
  | _ => false

theorem Expr.eq_func_of_isFunction (isFunction : expr.isFunction = true) :
    ∃ id params body native name, expr = .func id params body native name := by
  cases expr with
  | func id params body native name => exact ⟨id, params, body, native, name, rfl⟩
  | _ => cases isFunction

theorem Expr.mem_inside_of_mem_children (member : node ∈ expr.children) : node ∈ expr.inside := by
  cases expr with
  | func => cases member
  | _ => exact member

theorem Node.Occurs.inside {part : Node} (outer : tree.Occurs node)
    (member : part ∈ node.expr.inside) : tree.Occurs part := by
  obtain ⟨expr, span⟩ := node
  cases expr with
  | func id params body native name =>
    simp only [Expr.inside, List.mem_singleton] at member
    rw [member]
    exact outer.body
  | _ => exact outer.child member

theorem Node.Occurs.trans {part : Node} (outer : tree.Occurs node) (inner : node.Occurs part) :
    tree.Occurs part := by
  induction inner with
  | whole => exact outer
  | child _ member ih => exact ih.child member
  | body _ ih => exact ih.body

/-- What occurs in a tree is the tree itself or occurs below it. -/
theorem Node.Occurs.cases_root (occurs : tree.Occurs node) :
    node = tree ∨ ∃ part ∈ tree.expr.inside, part.Occurs node := by
  induction occurs with
  | whole => exact .inl rfl
  | child _ member ih =>
    rcases ih with rfl | ⟨part, inside, occurs⟩
    · exact .inr ⟨_, Expr.mem_inside_of_mem_children member, .whole⟩
    · exact .inr ⟨part, inside, occurs.child member⟩
  | body _ ih =>
    rcases ih with rfl | ⟨part, inside, occurs⟩
    · exact .inr ⟨_, by simp [Expr.inside], .whole⟩
    · exact .inr ⟨part, inside, occurs.body⟩

/-! ## Induction -/

theorem sizeOf_lt_of_mem_initializers {bindings : List Binding}
    (member : node ∈ bindings.filterMap Binding.value) : sizeOf node < sizeOf bindings := by
  obtain ⟨⟨name, type, value, span⟩, binding, equal⟩ := List.mem_filterMap.mp member
  have smaller := List.sizeOf_lt_of_mem binding
  subst equal
  simp only [Binding.mk.sizeOf_spec, Option.some.sizeOf_spec] at smaller
  omega

theorem sizeOf_lt_of_mem_handlers {handlers : List Handler}
    (member : node ∈ handlers.map Handler.body) : sizeOf node < sizeOf handlers := by
  obtain ⟨⟨exception, body⟩, handler, rfl⟩ := List.mem_map.mp member
  have smaller := List.sizeOf_lt_of_mem handler
  simp only [Handler.mk.sizeOf_spec] at smaller ⊢
  omega

theorem sizeOf_lt_of_mem_slots {slots : List Slot} (member : node ∈ slots.map Slot.value) :
    sizeOf node < sizeOf slots := by
  obtain ⟨⟨name, value⟩, slot, rfl⟩ := List.mem_map.mp member
  have smaller := List.sizeOf_lt_of_mem slot
  simp only [Slot.mk.sizeOf_spec] at smaller ⊢
  omega

theorem Expr.sizeOf_lt_of_mem_children (member : node ∈ expr.children) :
    sizeOf node < sizeOf expr := by
  have inList : ∀ {nodes : List Node}, node ∈ nodes → sizeOf node < sizeOf nodes :=
    List.sizeOf_lt_of_mem
  cases expr with
  | localDecl bindings => simpa using Nat.lt_add_left 1 (sizeOf_lt_of_mem_initializers member)
  | constantDecl bindings => simpa using Nat.lt_add_left 1 (sizeOf_lt_of_mem_initializers member)
  | makeFrame slots => simpa using Nat.lt_add_left 1 (sizeOf_lt_of_mem_slots member)
  | tryCatch body handlers =>
    simp only [tryCatch.sizeOf_spec]
    rcases List.mem_cons.mp member with rfl | inside
    · omega
    · have smaller := sizeOf_lt_of_mem_handlers inside
      omega
  | path object key => cases key <;> grind [children]
  | _ => grind [children]

theorem Expr.sizeOf_lt_of_mem_inside (member : node ∈ expr.inside) : sizeOf node < sizeOf expr := by
  cases expr with
  | func id params body native name =>
    simp only [inside, List.mem_singleton] at member
    simp only [member, func.sizeOf_spec]
    omega
  | _ => exact sizeOf_lt_of_mem_children member

/-- What holds of a node whenever it holds of the nodes directly below, holds
of all nodes. -/
theorem Node.induction {motive : Node → Prop}
    (step : ∀ expr span, (∀ part ∈ expr.inside, motive part) → motive ⟨expr, span⟩)
    (node : Node) : motive node := by
  obtain ⟨expr, span⟩ := node
  refine step expr span fun part member => ?_
  have := Expr.sizeOf_lt_of_mem_inside member
  exact Node.induction step part
termination_by sizeOf node
decreasing_by simp only [Node.mk.sizeOf_spec]; omega

/-! ## Function literals -/

/-- The number of an expression that is a function literal. -/
def Expr.functionId? : Expr → Option FuncId
  | .func id .. => some id
  | _ => none

/-- The numbers of the function literals of a tree. -/
def Node.functionIds : Node → List FuncId
  | ⟨expr, _⟩ =>
    expr.functionId?.toList ++ expr.inside.attach.flatMap fun part => part.val.functionIds
termination_by node => sizeOf node
decreasing_by
  have := Expr.sizeOf_lt_of_mem_inside part.property
  simp only [Node.mk.sizeOf_spec]
  omega

theorem Node.functionIds_eq (expr : Expr) (span : Span) :
    Node.functionIds ⟨expr, span⟩ =
      expr.functionId?.toList ++ expr.inside.flatMap Node.functionIds := by
  rw [Node.functionIds, List.flatMap_subtype (fun _ _ => rfl), List.unattach_attach]

theorem Node.functionIds_of_noFunction (noFunction : expr.isFunction = false) (span : Span) :
    Node.functionIds ⟨expr, span⟩ = expr.children.flatMap Node.functionIds := by
  rw [functionIds_eq]
  cases expr with
  | func => cases noFunction
  | _ => rfl

@[simp]
theorem Node.functionIds_func (id : FuncId) (params : List Param) (body : Node) (native : Bool)
    (name : Option Symbol) (span : Span) :
    Node.functionIds ⟨.func id params body native name, span⟩ = id :: body.functionIds := by
  rw [functionIds_eq]
  simp [Expr.functionId?, Expr.inside]

/-- Every number is that of a function literal in the tree. -/
theorem Node.exists_of_mem_functionIds (tree : Node) {function : FuncId}
    (member : function ∈ tree.functionIds) :
    ∃ params body native name span, tree.Occurs ⟨.func function params body native name, span⟩ := by
  induction tree using Node.induction with
  | step expr span ih =>
    rw [functionIds_eq] at member
    rcases List.mem_append.mp member with own | below
    · cases expr with
      | func =>
        cases List.mem_singleton.mp own
        exact ⟨_, _, _, _, _, .whole⟩
      | _ => cases own
    · obtain ⟨part, inside, below⟩ := List.mem_flatMap.mp below
      obtain ⟨params, body, native, name, region, occurs⟩ := ih part inside below
      exact ⟨params, body, native, name, region, (Occurs.whole.inside inside).trans occurs⟩

end NewtonScript
