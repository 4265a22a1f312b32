import NewtonScript.Proofs.Emission.Patch

/-!
# Handlers

A body with handlers begins with a table of addresses that are known only when
the handlers are emitted.  Until then the addresses are reserved, and so are
the branches from the handlers to their common end.
-/

namespace NewtonScript.Emission

open Bytecode

variable {count start : Nat} {result : Unit} {labels ends : List Label} {body : Fragment Primitive}
  {fragment : Fragment Instruction} {setting : Setting} {ctx : Context}
  {state first middle final : State}

/-! ## Rows whose addresses are open -/

/-- The table of handlers whose addresses are not known yet. -/
def openTable : List Instruction → List Cell
  | [] => []
  | name :: names => .plain name :: .plain (Buffer.reserved .pushConstant) :: openTable names

/-- The places of the addresses in a table that begins at a place. -/
def addressIndices : List Instruction → Nat → List Nat
  | [], _ => []
  | _ :: names, index => (index + 1) :: addressIndices names (index + 2)

/-- Alternatives whose branches to their common end are not completed yet. -/
def openCells : Fragment Instruction → Nat → Nat → List Cell
  | .joined first rest, count + 2, start =>
    first.cells start ++ .plain (Buffer.reserved .branch) ::
      openCells rest (count + 1) (start + bytesOf (first.cells start) + 3)
  | fragment, _, start => fragment.cells start

/-- The places of the branches from alternatives to their common end. -/
def endIndices : Fragment Instruction → Nat → Nat → Nat → List Nat
  | .joined first rest, count + 2, index, start =>
    (index + (first.cells start).length) ::
      endIndices rest (count + 1) (index + (first.cells start).length + 1)
        (start + bytesOf (first.cells start) + 3)
  | _, _, _, _ => []

theorem length_addressIndices (names : List Instruction) (index : Nat) :
    (addressIndices names index).length = names.length := by
  induction names generalizing index with
  | nil => rfl
  | cons name names ih => simp [addressIndices, ih]

theorem length_openTable (names : List Instruction) :
    (openTable names).length = 2 * names.length := by
  induction names with
  | nil => rfl
  | cons name names ih =>
    simp only [openTable, List.length_cons, ih]
    omega

theorem bytesOf_openTable (names : List Instruction) :
    bytesOf (openTable names) = tableSize names := by
  induction names with
  | nil => rfl
  | cons name names ih =>
    simp only [openTable, bytesOf_cons, ih, tableSize, Cell.size_plain, size_reserved]
    omega

theorem bytesOf_openCells (fragment : Fragment Instruction) (count start : Nat) :
    bytesOf (openCells fragment count start) = bytesOf (fragment.cells start) := by
  fun_induction openCells fragment count start with
  | case1 first rest count start ih => simp [Fragment.cells, ih]
  | case2 => rfl

@[simp]
theorem openCells_one (fragment : Fragment Instruction) (start : Nat) :
    openCells fragment 1 start = fragment.cells start := by
  cases fragment <;> rfl

@[simp]
theorem entries_one (fragment : Fragment Instruction) (start : Nat) :
    fragment.entries 1 start = [start] := by
  cases fragment <;> rfl

@[simp]
theorem endIndices_one (fragment : Fragment Instruction) (index start : Nat) :
    endIndices fragment 1 index start = [] := by
  cases fragment <;> rfl

/-- The branches to the common end are completed behind the last alternative. -/
theorem Grown.patchEnds (before : List Cell)
    (grown : Grown setting state middle (before ++ openCells fragment count start))
    (reached : start = state.size + bytesOf before)
    (places : ends.map Label.index =
      endIndices fragment count (state.code.length + before.length) start)
    (run : patchAllHere ends ctx middle = .ok result final) :
    Keeps setting middle final ∧ Grown setting state final (before ++ fragment.cells start) := by
  fun_induction openCells fragment count start generalizing before ends middle with
  | case1 first rest count start ih =>
    simp only [endIndices] at places
    obtain ⟨label, ends, rfl, place, places⟩ := List.map_eq_cons_iff.mp places
    obtain ⟨_, next, patched, run⟩ := bind_eq_ok run
    obtain ⟨keeps, closed⟩ := Grown.patchHere (before ++ first.cells start)
      (by simpa using grown) (by simpa [Nat.add_assoc] using place) patched
    rw [List.append_cons] at closed
    obtain ⟨keeps', closed'⟩ := ih _ closed (by simp [reached, Nat.add_assoc])
      (by simpa [Nat.add_assoc] using places) run
    refine ⟨keeps.trans keeps', ?_⟩
    simpa [Fragment.cells, bytesOf_openCells, reached, Nat.add_assoc] using closed'
  | case2 fragment count start others =>
    rw [endIndices] at places
    · rw [List.map_eq_nil_iff.mp places] at run
      obtain ⟨-, rfl⟩ := pure_eq_ok_iff.mp run
      exact ⟨(Grown.refl _ _).keeps, grown⟩
    · exact others

/-! ## One handler after another -/

/-- A state to which handlers were added: the branches to their common end are
given, and their addresses are put into the table that waits for them. -/
def GrowsHandlers (setting : Setting) (ctx : Context) (state final : State)
    (labels ends : List Label) (count : Nat) (code : Fragment Primitive) : Prop :=
  ∃ fragment : Fragment Instruction,
    code.Rel (Primitive.Realized ctx.layout final.pool final.store.maps) fragment ∧
      Keeps setting state final ∧ (fragment.entries count state.size).length = count ∧
      ends.map Label.index = endIndices fragment count state.code.length state.size ∧
      ∀ ⦃start before names after⦄, names.length = count →
        labels.map Label.index = addressIndices names (start.code.length + before.length) →
        Grown setting start state (before ++ (openTable names ++ after)) →
        Grown setting start final (before ++
          (tableCells names (fragment.entries count state.size) ++
            (after ++ openCells fragment count state.size)))

theorem growsHandlers_none : GrowsHandlers setting ctx state state [] [] 0 .empty := by
  refine ⟨.empty, .empty, (Grown.refl _ _).keeps, rfl, rfl, fun start before names after none _ grown => ?_⟩
  cases names with
  | nil => simpa [openTable, tableCells, openCells, Fragment.cells] using grown
  | cons => cases none

/-- The first of the addresses that are open is the end of the row. -/
theorem Grown.patchAddressHere {label : Label} {before after : List Cell} {name : Instruction}
    (grown : Grown setting state middle
      (before ++ .plain name :: .plain (Buffer.reserved .pushConstant) :: after))
    (place : label.index = state.code.length + before.length + 1)
    (run : Emission.patchAddressHere label ctx middle = .ok result final) :
    Grown setting state final (before ++ .plain name :: .address middle.size :: after) := by
  obtain ⟨near, changed⟩ := patchAddressHere_eq_ok run
  have split : Grown setting state middle ((before ++ [.plain name]) ++
      .plain (Buffer.reserved .pushConstant) :: after) := by simpa using grown
  have done := split.set _ (.address middle.size) (by simpa [Nat.add_assoc] using place) changed
    (by simp [Cell.instr, Buffer.reserved]) rfl rfl
    fun target same => Cell.address.inj same ▸ near
  simpa using done

theorem growsHandlers_one {label : Label}
    (patched : patchAddressHere label ctx state = .ok result first)
    (grows : Grows setting ctx first final body) :
    GrowsHandlers setting ctx state final [label] [] 1 body := by
  obtain ⟨fragment, related, grown⟩ := grows
  obtain ⟨-, -, size, same⟩ := patchAddressHere_eq_ok patched
  rw [size] at grown
  refine ⟨fragment, related, (same.keeps setting).trans grown.keeps, by simp, by simp, ?_⟩
  intro start before names after count places front
  obtain ⟨name, rfl⟩ := List.length_eq_one_iff.mp count
  have addressed := Grown.patchAddressHere front (List.cons.inj places).1 patched
  simpa [tableCells, openTable] using addressed.trans grown

theorem growsHandlers_cons {label toEnd : Label} {rest : Fragment Primitive} {second : State}
    (patched : patchAddressHere label ctx state = .ok result first)
    (grows : Grows setting ctx first second body)
    (reserved : reserve .branch ctx second = .ok toEnd middle)
    (others : GrowsHandlers setting ctx middle final labels ends (count + 1) rest) :
    GrowsHandlers setting ctx state final (label :: labels) (toEnd :: ends) (count + 2)
      (.joined body rest) := by
  obtain ⟨fragment, related, grown⟩ := grows
  obtain ⟨fragment', related', keeps', length', places', behind⟩ := others
  obtain ⟨-, code, size, same⟩ := patchAddressHere_eq_ok patched
  obtain ⟨keeps, place, opened⟩ := grown.reserve reserved
  have length : first.code.length = state.code.length := by simp [code, setOperandAt]
  have ended := opened.size
  have counted := opened.length
  rw [size] at opened ended
  refine ⟨.joined fragment fragment', .joined ((keeps.trans keeps').rel related) related',
    (same.keeps setting).trans (opened.keeps.trans keeps'), ?_, ?_, ?_⟩
  · simpa [Fragment.entries, ended, Nat.add_assoc] using length'
  · simp [endIndices, place, places', length, counted, ended, size, Nat.add_assoc]
  · intro start before names after count places front
    obtain ⟨name, names, rfl⟩ := List.exists_cons_of_length_eq_add_one count
    obtain ⟨here, there⟩ := List.cons.inj places
    have addressed := (Grown.patchAddressHere front here patched).trans opened
    have done := @behind start (before ++ [.plain name, .address state.size]) names
      (after ++ (fragment.cells state.size ++ [.plain (Buffer.reserved .branch)]))
      (Nat.succ.inj count) (by simpa [Nat.add_assoc] using there) (by simpa using addressed)
    simpa [Fragment.entries, openCells, tableCells, ended, Nat.add_assoc] using done

/-! ## A body with handlers -/

theorem handlerTable_grown {handlers : List Handler}
    (ready : Store.Harmless setting.Known setting.origin state.store)
    (run : handlerTable handlers ctx state = .ok labels final) :
    ∃ names,
      List.Forall₂ (Primitive.Realized ctx.layout final.pool final.store.maps)
        (handlers.map fun handler => .value (.symbol handler.exception)) names ∧
      labels.map Label.index = addressIndices names state.code.length ∧
      Grown setting state final (openTable names) := by
  induction handlers generalizing state labels with
  | nil =>
    obtain ⟨rfl, rfl⟩ := pure_eq_ok_iff.mp run
    exact ⟨[], .nil, rfl, .refl setting _⟩
  | cons handler rest ih =>
    obtain ⟨_, first, pushed, run⟩ := bind_eq_ok run
    obtain ⟨label, second, reserved, run⟩ := bind_eq_ok run
    obtain ⟨labels', third, others, run⟩ := bind_eq_ok run
    obtain ⟨rfl, rfl⟩ := pure_eq_ok_iff.mp run
    obtain ⟨-, fragment, related, grown⟩ := yields_pushSymbol handler.exception ready pushed
    cases related with
    | @plain _ name realized =>
      obtain ⟨-, place, opened⟩ := (Grown.refl setting _).reserve reserved
      have keeps := grown.keeps.trans opened.keeps
      obtain ⟨names, realized', places, grown'⟩ := ih (ready.trans keeps.store) others
      simp only [Fragment.cells] at grown
      refine ⟨name :: names, .cons ?_ realized', ?_, grown.trans (opened.trans grown')⟩
      · have later := opened.keeps.trans grown'.keeps
        exact realized.mono later.pool later.store.extends_.maps
      · simp [addressIndices, place, places, opened.code, grown.code]

theorem forall₂_keeps {primitives : List Primitive} {layout : FrameLayout}
    (keeps : Keeps setting state final)
    (table : List.Forall₂ (Primitive.Realized layout state.pool state.store.maps) primitives names) :
    List.Forall₂ (Primitive.Realized layout final.pool final.store.maps) primitives names :=
  table.imp fun _ _ realized => realized.mono keeps.pool keeps.store.extends_.maps

theorem yields_tryCatch {handlers : List Handler} {action : EmitM Unit}
    {emitted : List Label → EmitM (List Label)} {alternatives : Fragment Primitive}
    (yields : Yields setting ctx action () body) (behind : ∀ ⦃state final labels ends⦄,
      Store.Harmless setting.Known setting.origin state.store → labels.length = handlers.length →
        emitted labels ctx state = .ok ends final →
        GrowsHandlers setting ctx state final labels ends handlers.length alternatives) :
    Yields setting ctx (tryCatch handlers action emitted) ()
      (.handled (handlers.map fun handler => .value (.symbol handler.exception)) body
        alternatives) := by
  intro state final result ready run
  obtain ⟨labels, first, tabled, run⟩ := bind_eq_ok run
  obtain ⟨_, second, installed, run⟩ := bind_eq_ok run
  obtain ⟨_, third, guarded, run⟩ := bind_eq_ok run
  obtain ⟨_, fourth, removed, run⟩ := bind_eq_ok run
  obtain ⟨continuation, fifth, reserved, run⟩ := bind_eq_ok run
  obtain ⟨ends, sixth, handled, run⟩ := bind_eq_ok run
  obtain ⟨_, seventh, joined, run⟩ := bind_eq_ok run
  obtain ⟨_, eighth, removed', patched⟩ := bind_eq_ok run
  obtain ⟨names, realized, places, table⟩ := handlerTable_grown ready tabled
  have count : names.length = handlers.length := by simpa using realized.length_eq.symm
  rw [← count] at installed behind
  obtain ⟨keeps₁, install⟩ := table.op installed
  obtain ⟨keeps₂, fragment, related, inner⟩ := install.emit ready yields guarded
  have remove : Grown setting third fourth [.plain remover] := grown_push removed
  obtain ⟨keeps₄, place, opened⟩ := (inner.trans remove).reserve reserved
  generalize cells : fragment.cells _ = code at place opened
  have front : openTable names ++ [Cell.plain (.shortest .newHandlers names.length.toUInt16)] ++
      code ++ [.plain remover] =
        openTable names ++ .plain (installer names.length) :: (code ++ [.plain remover]) := by
    simp [installer]
  rw [front] at opened place
  rw [List.append_assoc] at opened
  -- The handlers, whose addresses go into the table.
  have labels_length : labels.length = names.length := by
    simpa [length_addressIndices] using congrArg List.length places
  obtain ⟨fragment', related', keeps₅, entries, places', addressed⟩ :=
    behind (ready.trans opened.keeps.store) labels_length handled
  have whole := @addressed state [] names _ rfl places opened
  have reached := opened.size
  rw [bytesOf_append, bytesOf_openTable, ← bytesOf_tableCells entries, ← bytesOf_append] at reached
  have length := opened.length
  rw [List.length_append, length_openTable, ← length_tableCells entries, ← List.length_append]
    at length
  obtain ⟨keeps₆, ended⟩ := Grown.patchEnds _ (by simpa using whole) reached (length ▸ places') joined
  have remove' : Grown setting seventh eighth [.plain remover] := grown_push removed'
  rw [List.length_append, length_openTable, ← length_tableCells entries, ← List.length_append]
    at place
  obtain ⟨keeps₈, closed⟩ := Grown.patchHere _ (by simpa using ended.trans remove') place patched
  have keeps₅' := keeps₆.trans (remove'.keeps.trans keeps₈)
  have keeps₂' := remove.keeps.trans (keeps₄.trans (keeps₅.trans keeps₅'))
  refine ⟨rfl, .handled names fragment fragment', .handled ?_ (keeps₂'.rel related)
    (keeps₅'.rel related'), ?_⟩
  · exact forall₂_keeps (keeps₁.trans (keeps₂.trans keeps₂')) realized
  · have first : fifth.size = state.size + tableSize names + (installer names.length).size +
        bytesOf code + 6 := by
      rw [reached]
      simp [bytesOf_tableCells entries]
      omega
    rw [bytesOf_append, bytesOf_openTable, bytesOf_cons, bytesOf_nil, Nat.add_zero,
      Cell.size_plain, ← Nat.add_assoc] at cells
    rw [bytesOf_append, bytesOf_tableCells entries] at closed
    simp only [Fragment.cells, installer, cells, first] at closed ⊢
    simpa [Nat.add_assoc] using closed

end NewtonScript.Emission
