import NewtonScript.Proofs.Emission.Handlers

/-!
# The code of effects and functions

What the emitter puts around a part that is emitted for its effect, and how it
seals the body of a function: if the part yields its code, so does the whole.
-/

namespace NewtonScript.Emission

open Bytecode

variable {state final : State} {outer : ScopeId} {block : CodeBlock} {action : EmitM Unit}
  {emitted : Bool → EmitM Bool} {setting : Setting} {ctx : Context}

/-! ## Values and effects -/

theorem yields_value {left : Bool} {code : Fragment Primitive}
    (yields : Yields setting ctx (emitted false) left code) :
    Yields setting ctx (value emitted) () code :=
  yields.bind_pure rfl

theorem yields_report (diagnostic : Diagnostic) :
    Yields setting ctx (report diagnostic) () .empty := by
  intro state final result _ run
  cases run
  refine ⟨rfl, .empty, .empty, ?_⟩
  simp only [Fragment.cells]
  exact .of_sameBut (by simp [State.code]) (by simp [State.size]) (by simp) (by simp)
    ⟨rfl, rfl, rfl⟩

theorem yields_effect {node : Node} {code : Bool → Fragment Primitive}
    (yields : Yields setting ctx (emitted true) (leavesValue node true) (code true)) :
    Yields setting ctx (effect node emitted) () (effectCode node code) := by
  have popped : Yields setting ctx (do if ← emitted true then simple .pop) ()
      (effectCode node code) := by
    refine yields.bind ?_
    cases leavesValue node true with
    | true => exact yields_simple .pop
    | false => exact yields_pure ()
  unfold effect
  cases unusedWarning? node with
  | some warning => exact (yields_report warning).bind_left popped
  | none => exact popped

theorem yields_arm {node : Node} {code : Bool → Fragment Primitive} (discard : Bool)
    (yields : ∀ discard,
      Yields setting ctx (emitted discard) (leavesValue node discard) (code discard)) :
    Yields setting ctx (arm node discard emitted) () (armCode node discard code) := by
  cases discard with
  | true => exact yields_effect (yields true)
  | false => exact yields_value (yields false)

/-! ## Functions -/

theorem yields_ret (operands : Nat) :
    Yields setting ctx (simple .ret) () (.finish operands) := by
  intro state final result _ run
  obtain ⟨code, size, same⟩ := push_eq_ok run
  refine ⟨rfl, .finish operands, .finish operands, ?_⟩
  simp only [Fragment.cells]
  exact .of_sameBut (by simpa [Cell.instr] using code) (by rw [size]; rfl)
    (by simp [Cell.isOpen]) (by simp) same

theorem withStore_eq_ok {α : Type} {action : Store → α × Store} {value : α}
    (harmless : ∀ store, Store.Harmless setting.Known store (action store).2)
    (run : withStore action ctx state = .ok value final) : StoreOnly setting state final := by
  cases run
  exact ⟨rfl, harmless state.store⟩

theorem internAll_eq_ok (setting : Setting) {spellings : List String} {names : List Symbol}
    (run : internAll spellings ctx state = .ok names final) :
    names == spellings.map Symbol.ofString ∧ StoreOnly setting state final := by
  induction spellings generalizing state names with
  | nil =>
    obtain ⟨rfl, rfl⟩ := pure_eq_ok_iff.mp run
    exact ⟨rfl, .refl setting _⟩
  | cons spelling rest ih =>
    obtain ⟨name, first, interned, run⟩ := bind_eq_ok run
    obtain ⟨others, second, run, made⟩ := bind_eq_ok run
    obtain ⟨rfl, rfl⟩ := pure_eq_ok_iff.mp made
    have only := withStore_eq_ok (Store.harmless_intern setting.Known spelling) interned
    obtain ⟨equal, only'⟩ := ih run
    have name_eq : name = (state.store.intern spelling).1 := by
      cases interned
      rfl
    refine ⟨?_, only.trans only'⟩
    simp [name_eq, Store.intern_eq, equal]

theorem frameTemplate?_eq_ok (setting : Setting) {scope : Scope} {frame : Option Value}
    (run : frameTemplate? scope ctx state = .ok frame final) :
    frame.isSome = ctx.layout.hasFrame ∧
      (∀ value, frame = some value → IsTemplate scope value) ∧ StoreOnly setting state final := by
  obtain ⟨_, _, read, run⟩ := bind_eq_ok run
  cases read
  split at run
  · rename_i hasFrame
    obtain ⟨template, middle, run, made⟩ := bind_eq_ok run
    obtain ⟨rfl, rfl⟩ := pure_eq_ok_iff.mp made
    obtain ⟨header, first, interned, run⟩ := bind_eq_ok run
    obtain ⟨map, second, shared, framed⟩ := bind_eq_ok run
    obtain ⟨equal, only⟩ := internAll_eq_ok setting interned
    have only' := only.trans
      ((withStore_eq_ok (Store.harmless_sharedMap setting.Known _) shared).trans
        (withStore_eq_ok (Store.harmless_makeFrameOver setting.Known map _) framed))
    have slots : map.slots == header ++ scope.names := by
      cases shared
      exact Store.sharedMap_slots _ _
    refine ⟨by simp [hasFrame], ?_, only'⟩
    rintro value ⟨⟩
    cases framed
    refine ⟨_, map, congrArg (Value.frame _ _) ?_, ?_⟩
    · simpa using (Symbol.length_eq_of_beq slots).symm
    · rw [Symbol.list_beq_iff] at slots equal ⊢
      rw [slots, List.map_append, List.map_append, equal]
  · rename_i hasNoFrame
    obtain ⟨rfl, rfl⟩ := pure_eq_ok_iff.mp run
    exact ⟨by simpa using hasNoFrame, nofun, .refl setting _⟩

theorem isolated_eq_ok {function : FunctionCode}
    (run : isolated action ctx state = .ok function final) :
    ∃ inner : State,
      (do action; simple .ret : EmitM Unit) ctx { state with function := {} } = .ok () inner ∧
        inner.function = function ∧ final = { inner with function := state.function } := by
  simp only [isolated] at run
  split at run
  · rename_i inner ran
    cases run
    exact ⟨inner, ran, rfl, rfl⟩
  · cases run

theorem sealCode_eq_ok (setting : Setting) {function : FunctionCode}
    (run : sealCode function ctx state = .ok block final) :
    function.code.size ≤ maxCodeSize ∧ block.code = function.code.bytes ∧
      block.literals = function.literals.toLiterals? ∧ block.numArgs = ctx.layout.numArgs ∧
      block.argFrame.isSome = ctx.layout.hasFrame ∧
      (∀ frame, block.argFrame = some frame →
        IsTemplate (ctx.scopes.get ctx.scope) frame) ∧
      block.compat = ctx.options.compat ∧ StoreOnly setting state final := by
  obtain ⟨_, _, read, run⟩ := bind_eq_ok run
  cases read
  by_cases long : maxCodeSize < function.code.size
  · simp only [if_pos long] at run
    obtain ⟨_, _, thrown, -⟩ := bind_eq_ok run
    exact absurd thrown throw_ne_ok
  · simp only [if_neg long] at run
    obtain ⟨frame, middle, framed, run⟩ := bind_eq_ok run
    obtain ⟨isSome, template, only⟩ := frameTemplate?_eq_ok setting framed
    obtain ⟨rfl, rfl⟩ := pure_eq_ok_iff.mp run
    exact ⟨Nat.le_of_not_lt long, rfl, rfl, rfl, isSome, template, rfl, only⟩

section

variable {id : ScopeId} {body : Node}
  (yields : Yields setting (setting.ctx id) action () (codeOf (setting.ctx id) setting.globals body {} false))
  (ready : Store.Harmless setting.Known setting.origin state.store)
  (run : functionBlock id action (setting.ctx outer) state = .ok block final)
include yields ready run

/-- The code block of a function is its code, laid out from position zero on. -/
theorem functionBlock_eq_ok :
    StoreOnly setting state final ∧ ∃ pool store code, Sealed setting id body block pool store code ∧
      ∀ value ∈ pool.values.toList, setting.Origin store value := by
  obtain ⟨function, middle, isolated, sealed⟩ := bind_eq_ok run
  obtain ⟨inner, emitted, rfl, rfl⟩ := isolated_eq_ok isolated
  obtain ⟨small, bytes, literals, numArgs, frame, template, compat, only⟩ :=
    sealCode_eq_ok setting sealed
  have ready' : Store.Harmless setting.Known setting.origin
      ({ state with function := {} } : State).store := ready
  obtain ⟨-, code, related, grown⟩ := (yields.seq (yields_ret 0)) ready' emitted
  have origins : ∀ value ∈ inner.pool, setting.Origin inner.store value := by
    intro value member
    rcases grown.origins value member with old | origin
    · cases old
    · exact origin
  refine ⟨⟨only.function, grown.keeps.store.trans only.store⟩,
    inner.function.literals, inner.store, code, ?_, origins⟩
  have size : inner.size = bytesOf (code.cells 0) := by
    simpa [State.size, Buffer.empty] using grown.size
  have instructions : inner.code = (code.cells 0).map Cell.instr := by
    simpa [State.code, State.size, Buffer.empty] using grown.code
  exact {
    made := ⟨action, _, state, final, rfl, rfl, run⟩
    related := related
    closed := grown.closed rfl
    reach := grown.reach
    small := size ▸ small
    bytes := by rw [bytes, Buffer.bytes, ← instructions, State.code]
    literals, numArgs, frame, template, compat
    origins := by
      intro value member
      rcases origins value member with known | shape | ⟨object, inner, equal, -⟩
      · exact .inl known
      · exact .inr (.inl shape)
      · exact .inr (.inr ⟨object, inner, equal⟩)
    store := ready.trans grown.keeps.store }

/-- A function literal of the tree is compiled. -/
theorem compiled_of_functionBlock {function : FuncId} (literal : setting.Literal function body)
    (scope : setting.scopes.scopeOf? function = some id) :
    StoreOnly setting state final ∧ Compiled setting block ∧
      block.argFrame.isSome = (setting.ctx id).layout.hasFrame := by
  obtain ⟨only, pool, store, code, sealed, origins⟩ := functionBlock_eq_ok yields ready run
  refine ⟨only, .intro literal scope sealed ?_, sealed.frame⟩
  intro object inner member unknown
  rcases origins _ member with known | ⟨shape, -, equal⟩ | ⟨_, _, equal, compiled⟩
  · exact absurd known unknown
  · cases equal
  · cases equal
    exact compiled

end

/-- A compiled block that becomes a literal. -/
theorem yields_pushBlock (compiled : Compiled setting block) (function : FuncId) :
    Yields setting ctx (do pushLiteral (← withStore (Store.makeBlock block))) ()
      (one (.function function)) := by
  intro state final result _ run
  obtain ⟨value, middle, made, run⟩ := bind_eq_ok run
  have only := withStore_eq_ok (Store.harmless_makeBlock setting.Known block) made
  cases made
  obtain ⟨instr, literal, grown⟩ :=
    literal_eq_ok setting (.inr (.inr ⟨_, block, rfl, compiled⟩)) run
  refine ⟨rfl, grows_one ?_ (by simpa using only.grown.trans grown)⟩
  exact literal.mono (List.prefix_refl _) fun known same => ⟨_, block, same⟩

/-- A function literal for its value: its block, and the variables around it
when it needs them. -/
theorem yields_pushFunction (compiled : Compiled setting block) (function : FuncId) :
    Yields setting ctx
      (do
        pushLiteral (← withStore (Store.makeBlock block))
        if block.argFrame.isSome then
          simple .setLexScope
        return true)
      true (one (.function function) ++ onlyIf block.argFrame.isSome (oneSimple .setLexScope)) := by
  have framed : Yields setting ctx
      (do
        if block.argFrame.isSome then
          simple .setLexScope
        return true)
      true (onlyIf block.argFrame.isSome (oneSimple .setLexScope)) := by
    cases block.argFrame.isSome with
    | true => exact (yields_simple .setLexScope).bind_pure rfl
    | false => exact yields_pure true
  have whole := (yields_pushBlock compiled function).seq framed
  simpa only [bind_assoc] using whole

theorem yields_functionLiteral {function : FuncId} {body : Node}
    (literal : setting.Literal function body) (span : Span) (discard : Bool)
    (yields : ∀ id, Yields setting (setting.ctx id) action ()
      (codeOf (setting.ctx id) setting.globals body {} false)) :
    Yields setting (setting.ctx outer) (functionLiteral function span action discard)
      (!discard) (functionCode (setting.ctx outer) function discard) := by
  intro state final result ready run
  obtain ⟨_, _, read, run⟩ := bind_eq_ok run
  cases read
  cases scope : (setting.ctx outer).scopes.scopeOf? function with
  | none =>
    simp only [scope] at run
    exact absurd run throw_ne_ok
  | some id =>
    simp only [scope] at run
    obtain ⟨block, first, emitted, run⟩ := bind_eq_ok run
    obtain ⟨only, compiled, frame⟩ :=
      compiled_of_functionBlock (yields id) ready emitted literal scope
    have unseen : Grows setting (setting.ctx outer) state first .empty :=
      ⟨.empty, .empty, by simpa only [Fragment.cells] using only.grown⟩
    cases discard with
    | true =>
      obtain ⟨rfl, rfl⟩ := pure_eq_ok_iff.mp run
      exact ⟨rfl, unseen⟩
    | false =>
      obtain ⟨rfl, grows⟩ := yields_pushFunction compiled function (ready.trans only.store) run
      refine ⟨rfl, ?_⟩
      simp only [functionCode, onlyIf, Bool.not_false, if_true, needsContext, scope]
      rw [frame] at grows
      exact unseen.append_left grows

end NewtonScript.Emission
