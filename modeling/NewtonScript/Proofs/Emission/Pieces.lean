import NewtonScript.Proofs.Emission.Following
import NewtonScript.Proofs.Emission.Growth

/-!
# The code of the short actions

Single instructions, literals, variables and calls: what each of the emitter's
short actions yields.
-/

namespace NewtonScript.Emission

open Bytecode

variable {value : Value} {primitive : Primitive} {opcode : Opcode} {setting : Setting}
  {ctx : Context} {state final : State}

/-! ## Single instructions -/

theorem grows_one {instr : Instruction}
    (realized : primitive.Realized ctx.layout final.pool final.store.maps instr)
    (grown : Grown setting state final [.plain instr]) :
    Grows setting ctx state final (one primitive) :=
  ⟨.plain instr, .plain realized, by simpa only [Fragment.cells] using grown⟩

theorem grown_push {instr : Instruction} {result : Unit}
    (run : push instr ctx state = .ok result final) :
    Grown setting state final [.plain instr] := by
  obtain ⟨code, size, same⟩ := push_eq_ok run
  exact .of_sameBut (by simpa [Cell.instr] using code) (by simpa using size)
    (by simp [Cell.isOpen]) (by simp) same

theorem yields_op (opcode : Opcode) (operand : Nat) :
    Yields setting ctx (op opcode operand) () (one (.op opcode operand)) := by
  intro state final value _ run
  obtain ⟨word, middle, checked, pushed⟩ := bind_eq_ok run
  obtain ⟨small, rfl, rfl⟩ := operand16_eq_ok checked
  exact ⟨rfl, grows_one ⟨small, rfl⟩ (grown_push pushed)⟩

theorem yields_simple (operation : SimpleOp) :
    Yields setting ctx (simple operation) () (oneSimple operation) := by
  intro state final value _ run
  exact ⟨rfl, grows_one rfl (grown_push run)⟩

/-- An operation on a variable of the function. -/
theorem yields_variable {slot : Nat} (means : ∀ pool maps instr,
      OperandIs opcode (ctx.layout.varIndex slot) instr →
        primitive.Realized ctx.layout pool maps instr) :
    Yields setting ctx (do op opcode ((← read).layout.varIndex slot)) () (one primitive) := by
  intro state final value _ run
  obtain ⟨_, _, found, run⟩ := bind_eq_ok run
  cases found
  obtain ⟨word, middle, checked, pushed⟩ := bind_eq_ok run
  obtain ⟨small, rfl, rfl⟩ := operand16_eq_ok checked
  exact ⟨rfl, grows_one (means _ _ _ ⟨small, rfl⟩) (grown_push pushed)⟩

theorem yields_getVar (slot : Nat) :
    Yields setting ctx (getVar slot) () (one (.getVar slot)) :=
  yields_variable fun _ _ _ operand => operand

theorem yields_setVar (slot : Nat) :
    Yields setting ctx (setVar slot) () (one (.setVar slot)) :=
  yields_variable fun _ _ _ operand => operand

theorem yields_incrVar (slot : Nat) :
    Yields setting ctx (incrVar slot) () (one (.incrVar slot)) :=
  yields_variable fun _ _ _ operand => operand

/-! ## Literals -/

/-- A literal pool gives a value the number of an equal literal, and gets no
other literal than the value. -/
theorem literalIndex_eq_ok {index : Nat} (run : literalIndex value ctx state = .ok index final) :
    final.code = state.code ∧ final.size = state.size ∧
      final.function.loops = state.function.loops ∧ final.store = state.store ∧
      state.pool <+: final.pool ∧ (∀ known ∈ final.pool, known ∈ state.pool ∨ known = value) ∧
      ∃ known, final.pool[index]? = some known ∧ known.sameLiteral value := by
  cases run
  refine ⟨rfl, rfl, rfl, rfl, ?_⟩
  simp only [State.pool, LiteralPool.indexOf?, LiteralPool.size]
  cases found : state.function.literals.values.findIdx? fun known => known.sameLiteral value with
  | some index =>
    obtain ⟨inside, same, -⟩ := Array.findIdx?_eq_some_iff_getElem.mp found
    refine ⟨List.prefix_refl _, fun known member => .inl member,
      state.function.literals.values[index], ?_, same⟩
    simp [inside]
  | none =>
    refine ⟨by simp, ?_, value, by simp, by simp⟩
    simp

/-- An operation on a literal. -/
theorem literal_eq_ok (setting : Setting) {result : Unit}
    (origin : setting.Origin state.store value)
    (run : (do op opcode (← literalIndex value) : EmitM Unit) ctx state = .ok result final) :
    ∃ instr,
      LiteralAt final.pool opcode (fun known => known.sameLiteral value) instr ∧
        Grown setting state final [.plain instr] := by
  obtain ⟨index, middle, found, emitted⟩ := bind_eq_ok run
  obtain ⟨code, size, loops, store, grown, added, known, at_index, same⟩ := literalIndex_eq_ok found
  obtain ⟨small, code', size', same'⟩ := op_eq_ok emitted
  refine ⟨_, ⟨index, known, same'.pool ▸ at_index, same, small, rfl⟩, ?_⟩
  exact {
    code := by simp [code', code, Cell.instr]
    size := by simp [size', size]
    loops := by simp [openLabels, Cell.isOpen, same'.loops, loops]
    closed := by simp [Cell.isOpen]
    reach := by simp
    keeps := ⟨same'.pool ▸ grown, by rw [same'.store, store]; exact .refl _ _⟩
    origins := by
      intro literal member
      rw [same'.pool] at member
      rcases added literal member with old | rfl
      · exact .inl old
      · rw [same'.store, store]
        exact .inr origin }

theorem yields_literal (known : setting.Known value) (means : ∀ pool maps instr,
      LiteralAt pool opcode (fun known => known.sameLiteral value) instr →
        primitive.Realized ctx.layout pool maps instr) :
    Yields setting ctx (do op opcode (← literalIndex value)) () (one primitive) := by
  intro state final result _ run
  obtain ⟨instr, literal, grown⟩ := literal_eq_ok setting (.inl known) run
  exact ⟨rfl, grows_one (means _ _ _ literal) grown⟩

theorem yields_pushSymbol (name : Symbol) :
    Yields setting ctx (pushSymbol name) () (one (.value (.symbol name))) :=
  yields_literal (setting.known_own _ rfl) fun _ _ _ literal => literal

theorem yields_pushValue (known : setting.Known value) :
    Yields setting ctx (pushValue value) () (one (.value value)) := by
  unfold pushValue
  cases immediate : Immediate.ofValue? value with
  | some operand =>
    intro state final result _ run
    obtain ⟨word, middle, checked, pushed⟩ := bind_eq_ok run
    obtain ⟨small, rfl, rfl⟩ := operand16_eq_ok checked
    refine ⟨rfl, grows_one ?_ (grown_push pushed)⟩
    simp [Primitive.Realized, immediate]
  | none =>
    refine yields_literal known fun pool maps instr literal => ?_
    simpa only [Primitive.Realized, immediate] using literal

theorem yields_pushNil : Yields setting ctx pushNil () nilCode :=
  yields_pushValue (setting.known_own _ rfl)

/-! ## The store -/

/-- A state in which only the store differs. -/
structure StoreOnly (setting : Setting) (state final : State) : Prop where
  function : final.function = state.function
  store : Store.Harmless setting.Known state.store final.store

theorem StoreOnly.refl (setting : Setting) (state : State) : StoreOnly setting state state :=
  ⟨rfl, .refl _ _⟩

theorem StoreOnly.trans {middle : State} (earlier : StoreOnly setting state middle)
    (later : StoreOnly setting middle final) : StoreOnly setting state final :=
  ⟨later.function.trans earlier.function, earlier.store.trans later.store⟩

theorem StoreOnly.grown (only : StoreOnly setting state final) : Grown setting state final [] where
  code := by simp [State.code, only.function]
  size := by simp [State.size, only.function]
  loops := by simp [openLabels, only.function]
  closed := by simp
  reach := by simp
  keeps := ⟨by simp [State.pool, only.function], only.store⟩
  origins := by simp +contextual [State.pool, only.function]

/-- An action on the store whose result has a property, in front of an action
that relies on the property alone. -/
theorem Yields.after_store {α β : Type} {action : Store → α × Store} {next : α → EmitM β}
    {result : β} {code : Fragment Primitive} (property : α → Prop)
    (harmless : ∀ store, Store.Harmless setting.Known store (action store).2)
    (holds : ∀ store, property (action store).1)
    (later : ∀ value, property value → Yields setting ctx (next value) result code) :
    Yields setting ctx (withStore action >>= next) result code := by
  intro state final found ready run
  obtain ⟨value, middle, stored, run⟩ := bind_eq_ok run
  cases stored
  have only : StoreOnly setting state { state with store := (action state.store).2 } :=
    ⟨rfl, harmless state.store⟩
  obtain ⟨equal, grows⟩ := later _ (holds state.store) (ready.trans only.store) run
  refine ⟨equal, Grows.append_left ⟨.empty, .empty, ?_⟩ grows⟩
  simpa only [Fragment.cells] using only.grown

theorem yields_pushSpelling (spelling : String) :
    Yields setting ctx (pushSpelling spelling) () (spelled spelling) := by
  refine Yields.after_store (fun name => name == Symbol.ofString spelling)
    (Store.harmless_intern setting.Known spelling) (Store.intern_eq spelling) ?_
  intro name equal
  refine yields_literal (setting.known_own _ rfl) fun pool maps instr literal => ?_
  refine literal.mono (List.prefix_refl _) fun known same => ?_
  cases known <;> simp only [Value.sameLiteral, Bool.false_eq_true] at same ⊢
  exact BEq.trans same equal

theorem yields_callGlobal (spelling : String) (count : Nat) :
    Yields setting ctx (callGlobal spelling count) () (callCode spelling count) :=
  (yields_pushSpelling spelling).bind (yields_op .call count)

/-- A text that was made for the place where it is pushed. -/
theorem yields_pushText (id : ObjectId) (text : String) :
    Yields setting ctx (pushLiteral (.string id text)) () (one (.text text)) := by
  refine yields_literal (setting.known_own _ rfl) fun pool maps instr literal => ?_
  exact literal.mono (List.prefix_refl _) fun known same => ⟨id, same⟩

/-- A path that is pushed as a literal of its own. -/
theorem yields_pushSlots (slots : List Symbol) :
    Yields setting ctx (do
      let className ← withStore (Store.intern "pathExpr")
      pushLiteral (← withStore (Store.makeArray className (slots.map Value.symbol)))) ()
      (one (.path slots)) := by
  refine Yields.after_store (fun _ => True) (Store.harmless_intern setting.Known "pathExpr")
    (fun _ => trivial) fun className _ => ?_
  refine Yields.after_store (fun value => ∃ id, value = .array id className (slots.map .symbol))
    (Store.harmless_makeArray setting.Known className _) (fun store => ⟨_, rfl⟩) ?_
  rintro _ ⟨id, rfl⟩
  have known := setting.known_own (.array id className (slots.map .symbol))
    (by simp [Value.isOwn, Value.isPlain, Value.fits])
  refine yields_literal known fun pool maps instr literal => ?_
  exact literal.mono (List.prefix_refl _) fun known same => ⟨id, className, same⟩

theorem yields_pushPath (slots : List Symbol) :
    Yields setting ctx (pushPath slots) () (pathCode slots) := by
  match slots with
  | [slot] => exact yields_pushSymbol slot
  | [] => exact yields_pushSlots []
  | slot :: next :: rest => exact yields_pushSlots (slot :: next :: rest)

/-- The map of a frame with given slots, which the store shares. -/
theorem yields_pushMap (slots : List Symbol) :
    Yields setting ctx (pushMap slots) () (one (.map slots)) := by
  intro state final result ready run
  obtain ⟨shape, middle, shared, run⟩ := bind_eq_ok run
  cases shared
  have only : StoreOnly setting state { state with store := (state.store.sharedMap slots).2 } :=
    ⟨rfl, Store.harmless_sharedMap setting.Known slots state.store⟩
  have member := Store.sharedMap_mem slots state.store
  obtain ⟨instr, literal, grown'⟩ := literal_eq_ok setting (.inr (.inl ⟨_, member, rfl⟩)) run
  refine ⟨rfl, grows_one ?_ (by simpa using only.grown.trans grown')⟩
  refine literal.mono (List.prefix_refl _) fun known same => ?_
  exact ⟨_, grown'.keeps.store.extends_.maps member, Store.sharedMap_slots slots state.store, same⟩

/-! ## Names -/

theorem yields_resolve (name : Symbol) :
    Yields setting ctx (resolve name) (resolvedIn ctx setting.globals name) .empty := by
  intro state final found ready run
  obtain ⟨_, _, read, run⟩ := bind_eq_ok run
  cases read
  have constants : state.store.constant? name = setting.globals.get? name := by
    rw [Store.constant?, ready.extends_.constants]
    rfl
  simp only [resolvedIn]
  cases resolved : ctx.scopes.resolve ctx.scope name with
  | environment =>
    rw [resolved] at run
    obtain ⟨_, _, read, run⟩ := bind_eq_ok run
    cases read
    rw [constants] at run
    cases global : setting.globals.get? name with
    | none =>
      rw [global] at run
      obtain ⟨rfl, rfl⟩ := pure_eq_ok_iff.mp run
      exact ⟨rfl, .empty⟩
    | some value =>
      rw [global] at run
      obtain ⟨rfl, rfl⟩ := pure_eq_ok_iff.mp run
      exact ⟨rfl, .empty⟩
  | slot | constant | outer =>
    rw [resolved] at run
    obtain ⟨rfl, rfl⟩ := pure_eq_ok_iff.mp run
    exact ⟨rfl, .empty⟩

theorem known_resolvedIn {id : ScopeId} {name : Symbol}
    (resolved : resolvedIn (setting.ctx id) setting.globals name = .constant value) :
    setting.Known value := by
  simp only [resolvedIn] at resolved
  split at resolved
  · split at resolved
    · rename_i global
      cases resolved
      exact setting.known_global name _ global
    · cases resolved
  · simp only [Scopes.resolve] at resolved
    split at resolved
    · cases resolved
    · split at resolved
      · rename_i constant
        cases resolved
        obtain ⟨declarer, bound⟩ := Scopes.constantAlong_eq_some constant
        exact setting.known_local declarer name value bound
      · split at resolved <;> cases resolved

theorem yields_duplicateIf (keep : Bool) :
    Yields setting ctx (duplicateIf keep) () (onlyIf keep (oneSimple .dup)) := by
  cases keep with
  | true => exact yields_simple .dup
  | false => exact yields_pure ()

theorem yields_findVar (name : Symbol) :
    Yields setting ctx (do op .findVar (← literalIndex (.symbol name))) ()
      (one (.lookup name)) :=
  yields_literal (setting.known_own _ rfl) fun _ _ _ literal => literal

theorem yields_findAndSetVar (name : Symbol) :
    Yields setting ctx (do op .findAndSetVar (← literalIndex (.symbol name))) ()
      (one (.assign name)) :=
  yields_literal (setting.known_own _ rfl) fun _ _ _ literal => literal

theorem yields_pushVariable (id : ScopeId) (name : Symbol) :
    Yields setting (setting.ctx id) (pushVariable name) ()
      (nameCode (setting.ctx id) setting.globals name) := by
  refine (yields_resolve name).bind_left ?_
  simp only [nameCode]
  cases resolved : resolvedIn (setting.ctx id) setting.globals name with
  | slot slot => exact yields_getVar slot
  | constant value => exact yields_pushValue (known_resolvedIn resolved)
  | outer => exact yields_findVar name
  | environment => exact yields_findVar name

theorem yields_refuseConstant (name : Symbol) (span : Span) :
    Yields setting ctx (refuseConstant name span) () .empty := by
  refine (yields_resolve name).bind_left ?_
  cases resolvedIn ctx setting.globals name with
  | constant value => exact yields_throw
  | slot | outer | environment => exact yields_pure ()

theorem yields_storeVariable (name : Symbol) (keep : Bool) (span : Span) :
    Yields setting ctx (storeVariable name keep span) ()
      (storeCode ctx setting.globals name keep) := by
  refine (yields_resolve name).bind_left ?_
  simp only [storeCode]
  cases resolvedIn ctx setting.globals name with
  | constant value => exact yields_throw
  | slot slot => exact (yields_duplicateIf keep).bind (yields_setVar slot)
  | outer => exact (yields_duplicateIf keep).bind (yields_findAndSetVar name)
  | environment => exact (yields_duplicateIf keep).bind (yields_findAndSetVar name)

theorem yields_pushExists (name : Symbol) :
    Yields setting ctx (pushExists name) ()
      (nameExistsCode ctx setting.globals name) := by
  refine (yields_resolve name).bind_left ?_
  simp only [nameExistsCode]
  cases resolvedIn ctx setting.globals name with
  | environment => exact (yields_pushSymbol name).bind (yields_callGlobal "HasVar" 1)
  | slot | outer | constant => exact yields_pushValue (setting.known_own .truth rfl)

/-! ## The slots of loops -/

theorem yields_of_asks {α : Type} {action : EmitM α} {value : α}
    (asks : Asks setting.Known ctx action value) :
    Yields setting ctx action value .empty := by
  intro state final result _ run
  obtain ⟨equal, function, store⟩ := asks run
  have only : StoreOnly setting state final := ⟨function, store⟩
  exact ⟨equal, .empty, .empty, by simpa only [Fragment.cells] using only.grown⟩

theorem yields_access {space : Value} (kind : VariableUse) (var : Variable) :
    Yields setting ctx ((Step.access kind var).perform space) ()
      (one (kind.primitive (slotIn ctx var.name))) := by
  intro state final result ready run
  obtain ⟨_, _, read, run⟩ := bind_eq_ok run
  cases read
  cases kind with
  | get => exact yields_getVar _ ready run
  | set => exact yields_setVar _ ready run
  | incr => exact yields_incrVar _ ready run

end NewtonScript.Emission
