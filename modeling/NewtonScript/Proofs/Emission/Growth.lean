import NewtonScript.Proofs.Code.OfTree

/-!
# Emission lays structured code out

An action yields some structured code when every successful run of it adds the
cells of that code to what was there, in the position where the run began.
Nothing that was there is changed, the open breaks are recorded for the
innermost loop, and the literal pool grows at its end.

The blocks that come about on the way are described by `Compiled`: their bytes
are the structured code of a function literal, and so on for the blocks among
their literals.
-/

namespace NewtonScript.Emission

open Bytecode

variable {code : Fragment Primitive}

/-- What the emission of one tree is about. -/
structure Setting where
  scopes : Scopes
  options : Options
  /-- The store in which emission began. -/
  origin : Store
  /-- The values that are there before anything is emitted. -/
  Known : Value → Prop
  /-- The function literals of the tree. -/
  Literal : FuncId → Node → Prop
  known_own : ∀ value, value.isOwn → Known value
  known_local : ∀ id name value, (scopes.get id).constants.get? name = some value → Known value
  known_global : ∀ name value, origin.constants.get? name = some value → Known value

namespace Setting

/-- The context of the function with a scope. -/
def ctx (setting : Setting) (id : ScopeId) : Context :=
  .ofScope setting.scopes setting.options id

/-- The global constants. -/
def globals (setting : Setting) : Table Symbol Value :=
  setting.origin.constants

end Setting

/-- A frame with `nil` in every slot: those with which every frame starts, and
one for each variable of a function. -/
def IsTemplate (scope : Scope) (frame : Value) : Prop :=
  ∃ object shape, frame = .frame object shape (shape.slots.map fun _ => .nil) ∧
    shape.slots == frameHeader.map Symbol.ofString ++ scope.names

/-- A block was made for the function with a scope. -/
def IsBlockOf (scopes : Scopes) (compat : Compatibility) (id : ScopeId) (block : CodeBlock) : Prop :=
  ∃ body ctx state final, ctx.scopes = scopes ∧ ctx.options.compat = compat ∧
    functionBlock id body ctx state = .ok block final

/-- A code block whose bytes are the code of a function body, laid out from
position zero on. -/
structure Sealed (setting : Setting) (id : ScopeId) (body : Node) (block : CodeBlock)
    (pool : LiteralPool) (store : Store) (code : Fragment Instruction) : Prop where
  made : IsBlockOf setting.scopes setting.options.compat id block
  related : (codeOfFunction (setting.ctx id) setting.globals body).Rel
    (Primitive.Realized (setting.ctx id).layout pool.values.toList store.maps) code
  closed : ∀ cell ∈ code.cells 0, cell.isOpen = false
  reach : ∀ target, Cell.address target ∈ code.cells 0 → target ≤ maxHandlerAddress
  small : bytesOf (code.cells 0) ≤ maxCodeSize
  bytes : block.code = ((code.cells 0).map Cell.instr).flatMap Instruction.encode
  literals : block.literals = pool.toLiterals?
  numArgs : block.numArgs = (setting.ctx id).layout.numArgs
  frame : block.argFrame.isSome = (setting.ctx id).layout.hasFrame
  template : ∀ frame, block.argFrame = some frame → IsTemplate (setting.scopes.get id) frame
  compat : block.compat = setting.options.compat
  origins : ∀ value ∈ pool.values.toList, setting.Known value ∨
    (∃ shape ∈ store.maps, value = .map shape) ∨ ∃ object inner, value = .block object inner
  store : Store.Harmless setting.Known setting.origin store

/-- A block that was emitted for a function literal of the tree, as were all
blocks among its literals that were not known before. -/
inductive Compiled (setting : Setting) : CodeBlock → Prop where
  | intro {function : FuncId} {id : ScopeId} {body : Node} {block : CodeBlock}
      {pool : LiteralPool} {store : Store} {code : Fragment Instruction}
      (literal : setting.Literal function body) (scope : setting.scopes.scopeOf? function = some id)
      (sealed : Sealed setting id body block pool store code)
      (blocks : ∀ object inner, Value.block object inner ∈ pool.values.toList →
        ¬ setting.Known (.block object inner) → Compiled setting inner) :
      Compiled setting block

/-- Where a literal comes from: it was known, it is a shared map, or it was
emitted. -/
def Setting.Origin (setting : Setting) (store : Store) (value : Value) : Prop :=
  setting.Known value ∨ (∃ shape ∈ store.maps, value = .map shape) ∨
    ∃ object block, value = .block object block ∧ Compiled setting block

theorem Setting.Origin.mono {setting : Setting} {before after : Store} {value : Value}
    (origin : setting.Origin before value) (extended : before.Extends after) :
    setting.Origin after value := by
  rcases origin with known | ⟨shape, member, equal⟩ | compiled
  · exact .inl known
  · exact .inr (.inl ⟨shape, extended.maps member, equal⟩)
  · exact .inr (.inr compiled)

/-! ## Rows of cells in the buffer -/

/-- The labels of the open breaks in a row, given where the row begins. -/
def openLabels : List Cell → Nat → Nat → List Label
  | [], _, _ => []
  | cell :: rest, index, position =>
    if cell.isOpen then
      ⟨index, position⟩ :: openLabels rest (index + 1) (position + cell.size)
    else
      openLabels rest (index + 1) (position + cell.size)

theorem openLabels_append (first second : List Cell) (index position : Nat) :
    openLabels (first ++ second) index position =
      openLabels first index position ++
        openLabels second (index + first.length) (position + bytesOf first) := by
  induction first generalizing index position with
  | nil => simp [openLabels]
  | cons cell rest ih =>
    simp only [List.cons_append, openLabels, ih, List.length_cons, bytesOf_cons]
    have index_eq : index + 1 + rest.length = index + (rest.length + 1) := by omega
    have position_eq :
        position + cell.size + bytesOf rest = position + (cell.size + bytesOf rest) := by omega
    split <;> simp [index_eq, position_eq]

theorem openLabels_eq_nil {cells : List Cell} (closed : ∀ cell ∈ cells, cell.isOpen = false)
    (index position : Nat) : openLabels cells index position = [] := by
  induction cells generalizing index position with
  | nil => rfl
  | cons cell rest ih =>
    have head := closed cell List.mem_cons_self
    have tail := fun other member => closed other (List.mem_cons_of_mem cell member)
    simp [openLabels, head, ih tail]

/-- Record breaks of the innermost loop, the latest first. -/
def addBreaks (labels : List Label) : List (List Label) → List (List Label)
  | breaks :: outer => (labels ++ breaks) :: outer
  | [] => []

@[simp]
theorem addBreaks_nil (loops : List (List Label)) : addBreaks [] loops = loops := by
  cases loops <;> rfl

theorem addBreaks_append (first second : List Label) (loops : List (List Label)) :
    addBreaks (first ++ second) loops = addBreaks first (addBreaks second loops) := by
  cases loops <;> simp [addBreaks]

theorem addBreaks_eq_nil_iff {labels : List Label} {loops : List (List Label)} :
    addBreaks labels loops = [] ↔ loops = [] := by
  cases loops <;> simp [addBreaks]

/-- A state in which what was turned into instructions before is still right. -/
structure Keeps (setting : Setting) (state final : State) : Prop where
  pool : state.pool <+: final.pool
  store : Store.Harmless setting.Known state.store final.store

theorem Keeps.trans {setting : Setting} {state middle final : State}
    (earlier : Keeps setting state middle) (later : Keeps setting middle final) :
    Keeps setting state final :=
  ⟨earlier.pool.trans later.pool, earlier.store.trans later.store⟩

theorem State.SameBut.keeps {state final : State} (same : state.SameBut final)
    (setting : Setting) : Keeps setting state final :=
  ⟨same.pool ▸ List.prefix_refl _, same.store ▸ .refl _ _⟩

theorem Keeps.rel {setting : Setting} {state final : State} {layout : FrameLayout}
    {fragment : Fragment Instruction} (keeps : Keeps setting state final)
    (related : code.Rel (Primitive.Realized layout state.pool state.store.maps) fragment) :
    code.Rel (Primitive.Realized layout final.pool final.store.maps) fragment :=
  related.mono fun _ _ realized => realized.mono keeps.pool keeps.store.extends_.maps

/-- A state to which a row of cells was added. -/
structure Grown (setting : Setting) (state final : State) (cells : List Cell) : Prop where
  code : final.code = state.code ++ cells.map Cell.instr
  size : final.size = state.size + bytesOf cells
  loops : final.function.loops =
    addBreaks (openLabels cells state.code.length state.size).reverse state.function.loops
  closed : state.function.loops = [] → ∀ cell ∈ cells, cell.isOpen = false
  reach : ∀ target, Cell.address target ∈ cells → target ≤ maxHandlerAddress
  keeps : Keeps setting state final
  origins : ∀ value ∈ final.pool, value ∈ state.pool ∨ setting.Origin final.store value

namespace Grown

variable {setting : Setting} {state middle final : State} {first second : List Cell}

theorem refl (setting : Setting) (state : State) : Grown setting state state [] where
  code := by simp
  size := by simp
  loops := by simp [openLabels]
  closed := by simp
  reach := by simp
  keeps := ⟨List.prefix_refl _, .refl _ _⟩
  origins := fun _ member => .inl member

theorem trans (earlier : Grown setting state middle first)
    (later : Grown setting middle final second) : Grown setting state final (first ++ second) where
  code := by rw [later.code, earlier.code]; simp
  size := by rw [later.size, earlier.size, bytesOf_append]; omega
  loops := by
    have length : middle.code.length = state.code.length + first.length := by
      rw [earlier.code]; simp
    rw [later.loops, earlier.loops, openLabels_append, List.reverse_append, addBreaks_append,
      length, earlier.size]
  closed := by
    intro none cell member
    have none' : middle.function.loops = [] := by
      rw [earlier.loops]
      exact addBreaks_eq_nil_iff.mpr none
    rcases List.mem_append.mp member with inFirst | inSecond
    · exact earlier.closed none cell inFirst
    · exact later.closed none' cell inSecond
  reach := by
    intro target member
    rcases List.mem_append.mp member with inFirst | inSecond
    · exact earlier.reach target inFirst
    · exact later.reach target inSecond
  keeps := earlier.keeps.trans later.keeps
  origins := by
    intro value member
    rcases later.origins value member with inMiddle | origin
    · rcases earlier.origins value inMiddle with inState | origin
      · exact .inl inState
      · exact .inr (origin.mono later.keeps.store.extends_)
    · exact .inr origin

/-- A change of the code alone. -/
theorem of_sameBut {cells : List Cell} (code : final.code = state.code ++ cells.map Cell.instr)
    (size : final.size = state.size + bytesOf cells) (closed : ∀ cell ∈ cells, cell.isOpen = false)
    (reach : ∀ target, Cell.address target ∈ cells → target ≤ maxHandlerAddress)
    (same : state.SameBut final) : Grown setting state final cells where
  code := code
  size := size
  loops := by rw [openLabels_eq_nil closed]; simpa using same.loops
  closed := fun _ => closed
  reach := reach
  keeps := same.keeps setting
  origins := by rw [same.pool]; exact fun _ member => .inl member

end Grown

/-! ## Actions that yield code -/

/-- A state to which structured code was added, laid out from the end of the
code before. -/
def Grows (setting : Setting) (ctx : Context) (state final : State)
    (code : Fragment Primitive) : Prop :=
  ∃ fragment,
    code.Rel (Primitive.Realized ctx.layout final.pool final.store.maps) fragment ∧
      Grown setting state final (fragment.cells state.size)

/-- Every successful run of an action gives this result and adds this code. -/
def Yields (setting : Setting) (ctx : Context) {α : Type} (action : EmitM α) (result : α)
    (code : Fragment Primitive) : Prop :=
  ∀ ⦃state final : State⦄ ⦃value : α⦄,
    Store.Harmless setting.Known setting.origin state.store →
      action ctx state = .ok value final →
        value = result ∧ Grows setting ctx state final code

variable {setting : Setting} {ctx : Context} {state middle final : State}

theorem Grows.keeps (grows : Grows setting ctx state final code) :
    Keeps setting state final := by
  obtain ⟨_, _, grown⟩ := grows
  exact grown.keeps

theorem Grows.empty : Grows setting ctx state state .empty := by
  refine ⟨.empty, .empty, ?_⟩
  exact .refl setting state

theorem Grows.append {first second : Fragment Primitive}
    (earlier : Grows setting ctx state middle first)
    (later : Grows setting ctx middle final second) :
    Grows setting ctx state final (first ++ second) := by
  obtain ⟨fragment, related, grown⟩ := earlier
  obtain ⟨fragment', related', grown'⟩ := later
  refine ⟨.append fragment fragment', .append (grown'.keeps.rel related) related', ?_⟩
  rw [grown.size] at grown'
  simpa only [Fragment.cells] using grown.trans grown'

/-- An action that adds nothing in front of one that adds code. -/
theorem Grows.append_left (earlier : Grows setting ctx state middle .empty)
    (later : Grows setting ctx middle final code) : Grows setting ctx state final code := by
  obtain ⟨_, related, grown⟩ := earlier
  obtain ⟨fragment, related', grown'⟩ := later
  cases related
  simp only [Fragment.cells] at grown
  have size : middle.size = state.size := by simpa using grown.size
  rw [size] at grown'
  exact ⟨fragment, related', by simpa using grown.trans grown'⟩

section

variable {α β : Type}

theorem yields_pure (value : α) : Yields setting ctx (pure value : EmitM α) value .empty := by
  intro state final result _ run
  obtain ⟨rfl, rfl⟩ := pure_eq_ok_iff.mp run
  exact ⟨rfl, .empty⟩

theorem Yields.bind {action : EmitM α} {next : α → EmitM β} {value : α} {result : β}
    {first second : Fragment Primitive} (earlier : Yields setting ctx action value first)
    (later : Yields setting ctx (next value) result second) :
    Yields setting ctx (action >>= next) result (first ++ second) := by
  intro state final found ready run
  obtain ⟨_, middle, run, run'⟩ := bind_eq_ok run
  obtain ⟨rfl, grows⟩ := earlier ready run
  obtain ⟨rfl, grows'⟩ := later (ready.trans grows.keeps.store) run'
  exact ⟨rfl, grows.append grows'⟩

/-- One action behind another. -/
theorem Yields.seq {action : EmitM Unit} {next : EmitM β} {result : β}
    {first second : Fragment Primitive} (earlier : Yields setting ctx action () first)
    (later : Yields setting ctx next result second) :
    Yields setting ctx (action >>= fun _ => next) result (first ++ second) :=
  earlier.bind later

theorem Yields.bind_left {action : EmitM α} {next : α → EmitM β} {value : α} {result : β}
    (earlier : Yields setting ctx action value .empty)
    (later : Yields setting ctx (next value) result code) :
    Yields setting ctx (action >>= next) result code := by
  intro state final found ready run
  obtain ⟨_, middle, run, run'⟩ := bind_eq_ok run
  obtain ⟨rfl, grows⟩ := earlier ready run
  obtain ⟨rfl, grows'⟩ := later (ready.trans grows.keeps.store) run'
  exact ⟨rfl, grows.append_left grows'⟩

/-- An action whose result is made from that of another. -/
theorem Yields.bind_pure {action : EmitM α} {make : α → β} {value : α} {result : β}
    (yields : Yields setting ctx action value code) (equal : make value = result) :
    Yields setting ctx (action >>= fun value => pure (make value)) result code := by
  intro state final found ready run
  obtain ⟨_, middle, run, made⟩ := bind_eq_ok run
  obtain ⟨rfl, grows⟩ := yields ready run
  obtain ⟨rfl, rfl⟩ := pure_eq_ok_iff.mp made
  exact ⟨equal, grows⟩

theorem yields_throw {failure : Failure} {result : α} :
    Yields setting ctx (throw failure : EmitM α) result code :=
  fun _ _ _ _ run => absurd run throw_ne_ok

end

end NewtonScript.Emission
