import NewtonScript.Emission
import NewtonScript.Proofs.Reading.Normal
import NewtonScript.Proofs.Scope.Captured

/-!
# What differs only in the spellings of names

Values, tables, stores, reports and scopes are akin when they are the same up
to the case of the letters in their names.  Which names are interned does not
matter, nor do the texts of reports.  Whatever is asked of them has the same
answer for both, up to spellings again.
-/

namespace NewtonScript

/-- Two options that are alike hold values that are alike, or nothing. -/
theorem both_of_map_eq {α β : Type} {f : α → β} {first second : Option α}
    (alike : first.map f = second.map f) : first = none ∧ second = none ∨
      ∃ value value', first = some value ∧ second = some value' ∧ f value = f value' := by
  cases first with
  | none => exact .inl ⟨rfl, Option.map_eq_none_iff.mp alike.symm⟩
  | some value =>
    obtain ⟨value', known, equal⟩ := Option.map_eq_some_iff.mp alike.symm
    exact .inr ⟨value, value', rfl, known, equal.symm⟩

/-! ## Names -/

/-- The same name, perhaps spelled in another case. -/
def Symbol.Same (first second : Symbol) : Prop :=
  second.folded = first.folded

/-- The same names in the same order. -/
def Symbol.SameAll (first second : List Symbol) : Prop :=
  second.map Symbol.folded = first.map Symbol.folded

/-- What two names stand for is the same, up to the values of constants. -/
inductive Resolved.Like (values : Value → Value → Prop) : Resolved → Resolved → Prop where
  | slot (index : Nat) : Like values (.slot index) (.slot index)
  | constant {value value' : Value} (like : values value value') :
      Like values (.constant value) (.constant value')
  | outer : Like values .outer .outer
  | environment : Like values .environment .environment

theorem Symbol.SameAll.nil : Symbol.SameAll [] [] := rfl

theorem Symbol.Same.cons {first second : Symbol} {rest rest' : List Symbol}
    (same : Symbol.Same first second) (all : Symbol.SameAll rest rest') :
    Symbol.SameAll (first :: rest) (second :: rest') := by
  change second.folded :: rest'.map Symbol.folded = first.folded :: rest.map Symbol.folded
  rw [all, same]

/-- Joining parts with bars keeps them the same. -/
theorem foldCase_append (first second : String) :
    foldCase (first ++ second) = foldCase first ++ foldCase second := by
  simp [foldCase]

theorem foldCase_hiddenSpelling {parts parts' : List Symbol} (same : Symbol.SameAll parts parts')
    (word : String) :
    foldCase (hiddenSpelling parts' word) = foldCase (hiddenSpelling parts word) := by
  induction parts generalizing parts' with
  | nil =>
    cases parts' with
    | nil => rfl
    | cons => cases same
  | cons part rest ih =>
    cases parts' with
    | nil => cases same
    | cons part' rest' =>
      obtain ⟨head, tail⟩ := List.cons.inj same
      have spelled : foldCase part'.spelling = foldCase part.spelling := by
        rw [← part'.folded_eq, ← part.folded_eq, head]
      change foldCase (part'.spelling ++ "|" ++ hiddenSpelling rest' word) =
        foldCase (part.spelling ++ "|" ++ hiddenSpelling rest word)
      simp only [foldCase_append, spelled, ih tail]

theorem foldCase_foldCase (spelling : String) :
    foldCase (foldCase spelling) = foldCase spelling := by
  have twice (c : Char) : c.toLower.toLower = c.toLower := by
    apply Char.toNat_inj.mp
    rw [toNat_toLower c.toLower, if_neg]
    rw [toNat_toLower]
    split <;> omega
  rw [foldCase, foldCase, String.toList_ofList, List.map_map]
  exact congrArg String.ofList (List.map_congr_left fun c _ => twice c)

namespace Symbol

variable {name name' : Symbol} {names names' : List Symbol}

@[simp]
theorem folded_normal (name : Symbol) : name.normal.folded = name.folded := by
  change foldCase name.folded = name.folded
  rw [name.folded_eq, foldCase_foldCase]

@[simp]
theorem normal_normal (name : Symbol) : name.normal.normal = name.normal :=
  normal_eq_iff.mpr name.folded_normal

@[simp]
theorem normal_beq (first second : Symbol) : (first.normal == second.normal) = (first == second) := by
  change (first.normal.folded == second.normal.folded) = (first.folded == second.folded)
  rw [folded_normal, folded_normal]

theorem same_iff {first second : Symbol} : Same first second ↔ first.normal = second.normal :=
  ⟨fun same => normal_eq_iff.mpr same.symm, fun same => (normal_eq_iff.mp same).symm⟩

theorem sameAll_iff {first second : List Symbol} :
    SameAll first second ↔ first.map normal = second.map normal := by
  have spelled : ∀ names : List Symbol, names.map normal = (names.map folded).map ofString :=
    fun names => by rw [List.map_map]; rfl
  have folded : ∀ names : List Symbol, names.map Symbol.folded = (names.map normal).map Symbol.folded :=
    fun names => by simp [Function.comp_def]
  constructor
  · intro same
    rw [spelled, spelled, same]
  · intro same
    rw [SameAll, folded second, ← same, ← folded]

theorem SameAll.append {first first' second second' : List Symbol} (front : SameAll first first')
    (back : SameAll second second') : SameAll (first ++ second) (first' ++ second') := by
  rw [SameAll, List.map_append, List.map_append, front, back]

theorem SameAll.length_eq (all : SameAll names names') : names'.length = names.length := by
  simpa using congrArg List.length all

@[simp]
theorem contains_normal (names : List Symbol) (name : Symbol) :
    (names.map normal).contains name.normal = names.contains name := by
  induction names with
  | nil => rfl
  | cons head rest ih =>
    rw [List.map_cons, List.contains_cons, List.contains_cons, normal_beq, ih]

theorem SameAll.contains_eq (all : SameAll names names') (same : Same name name') :
    names'.contains name' = names.contains name := by
  rw [← contains_normal names', ← contains_normal names, sameAll_iff.mp all, same_iff.mp same]

theorem SameAll.findIdx?_eq (all : SameAll names names') (same : Same name name') :
    names'.findIdx? (· == name') = names.findIdx? (· == name) := by
  have found : ∀ (names : List Symbol) (name : Symbol),
      names.findIdx? (· == name) = (names.map normal).findIdx? (· == name.normal) := by
    intro names name
    rw [List.findIdx?_map]
    exact congrArg (List.findIdx? · names) (funext fun other => (normal_beq other name).symm)
  rw [found names', found names, sameAll_iff.mp all, same_iff.mp same]

theorem SameAll.cons_iff {rest rest' : List Symbol} :
    SameAll (name :: rest) (name' :: rest') ↔ Same name name' ∧ SameAll rest rest' := by
  simp [SameAll, Same]

end Symbol

/-! ## Values -/

/-- A value with its names in normal spelling. -/
abbrev Value.folded (value : Value) : Value :=
  value.renamed Symbol.normal

/-- Trees are seen with their names in normal spelling. -/
abbrev View.folded : View :=
  .names Symbol.normal

theorem FrameMap.renamed_normal (map : FrameMap) :
    (map.renamed Symbol.normal).renamed Symbol.normal = map.renamed Symbol.normal := by
  simp [FrameMap.renamed]

theorem DebugNames.renamed_normal (debug : DebugNames) :
    (debug.renamed Symbol.normal).renamed Symbol.normal = debug.renamed Symbol.normal := by
  simp [DebugNames.renamed, Function.comp_def]

mutual

theorem Value.renamed_normal : ∀ value : Value,
    (value.renamed Symbol.normal).renamed Symbol.normal = value.renamed Symbol.normal
  | .symbol name => by rw [Value.renamed, Value.renamed, Symbol.normal_normal]
  | .array id className elements => by
    rw [Value.renamed, Value.renamed, Symbol.normal_normal, Value.renamedAll_normal elements]
  | .frame id shape values => by
    rw [Value.renamed, Value.renamed, FrameMap.renamed_normal, Value.renamedAll_normal values]
  | .map shape => by rw [Value.renamed, Value.renamed, FrameMap.renamed_normal]
  | .block id body => by rw [Value.renamed, Value.renamed, CodeBlock.renamed_normal body]
  | .nil | .truth | .int _ | .char _ | .real _ | .string _ _ | .magic _ => rfl

theorem Value.renamedAll_normal : ∀ values : List Value,
    Value.renamedAll Symbol.normal (Value.renamedAll Symbol.normal values) =
      Value.renamedAll Symbol.normal values
  | [] => rfl
  | value :: rest => by
    rw [Value.renamedAll, Value.renamedAll, Value.renamed_normal value,
      Value.renamedAll_normal rest]

theorem Value.renamedIn_normal : ∀ found : Option Value,
    Value.renamedIn Symbol.normal (Value.renamedIn Symbol.normal found) =
      Value.renamedIn Symbol.normal found
  | none => rfl
  | some value => by rw [Value.renamedIn, Value.renamedIn, Value.renamed_normal value]

theorem CodeBlock.renamedLiterals_normal : ∀ literals : Option (List Value),
    CodeBlock.renamedLiterals Symbol.normal (CodeBlock.renamedLiterals Symbol.normal literals) =
      CodeBlock.renamedLiterals Symbol.normal literals
  | none => rfl
  | some literals => by
    rw [CodeBlock.renamedLiterals, CodeBlock.renamedLiterals, Value.renamedAll_normal literals]

theorem CodeBlock.renamed_normal : ∀ block : CodeBlock,
    (block.renamed Symbol.normal).renamed Symbol.normal = block.renamed Symbol.normal
  | ⟨code, literals, numArgs, argFrame, debug, compat⟩ => by
    have names : (debug.map (DebugNames.renamed Symbol.normal)).map
        (DebugNames.renamed Symbol.normal) = debug.map (DebugNames.renamed Symbol.normal) := by
      cases debug <;> simp [DebugNames.renamed_normal]
    rw [CodeBlock.renamed, CodeBlock.renamed, CodeBlock.renamedLiterals_normal literals,
      Value.renamedIn_normal argFrame, names]

end

/-- The same value up to the spellings of names. -/
def Value.Akin (first second : Value) : Prop :=
  first.renamed Symbol.normal = second.renamed Symbol.normal

/-- The same code block up to the spellings of names. -/
def CodeBlock.Akin (first second : CodeBlock) : Prop :=
  first.renamed Symbol.normal = second.renamed Symbol.normal

/-- Code blocks that are the same up to the spellings of names, part by part. -/
theorem CodeBlock.Akin.parts {first second : CodeBlock} (akin : first.Akin second) :
    second.code = first.code ∧ second.numArgs = first.numArgs ∧
      second.literals.map (List.map Value.folded) = first.literals.map (List.map Value.folded) ∧
      second.argFrame.map Value.folded =
        first.argFrame.map Value.folded := by
  obtain ⟨code, literals, numArgs, argFrame, debug, compat⟩ := first
  obtain ⟨code', literals', numArgs', argFrame', debug', compat'⟩ := second
  simp only [Akin, CodeBlock.renamed, CodeBlock.renamedLiterals_eq, Value.renamedIn_eq,
    CodeBlock.mk.injEq] at akin
  obtain ⟨codes, pools, counts, frames, -, -⟩ := akin
  exact ⟨codes.symm, counts.symm, pools.symm, frames.symm⟩

/-- The same values up to the spellings of names. -/
def Value.AkinAll (first second : List Value) : Prop :=
  first.map Value.folded = second.map Value.folded

namespace Value

@[simp]
theorem sameLiteral_normal (first second : Value) :
    (first.renamed Symbol.normal).sameLiteral (second.renamed Symbol.normal) =
      first.sameLiteral second := by
  cases first <;> cases second <;> simp [Value.renamed, Value.sameLiteral, FrameMap.renamed]

theorem akin_atom {value value' : Value} (akin : value.Akin value') :
    Bytecode.Immediate.ofValue? value' = Bytecode.Immediate.ofValue? value := by
  have kept : ∀ value : Value, Bytecode.Immediate.ofValue? (value.renamed Symbol.normal) =
      Bytecode.Immediate.ofValue? value := by
    intro value
    cases value <;> simp [Value.renamed, Bytecode.Immediate.ofValue?]
  rw [← kept value', ← akin, kept]

theorem Akin.negated {value value' : Value} (akin : value.Akin value') :
    Option.map Value.folded (negateConstant? value) =
      Option.map Value.folded (negateConstant? value') := by
  have kept : ∀ value : Value, (negateConstant? value).map Value.folded =
      negateConstant? (value.renamed Symbol.normal) := by
    intro value
    cases value with
    | int n =>
      simp only [Value.renamed, negateConstant?]
      split <;> rfl
    | _ => rfl
  rw [kept, kept, akin]

end Value

/-! ## Tables -/

namespace Table

variable (table : Table Symbol Value) (name : Symbol)

/-- A table with its names in normal spelling. -/
def normal : Table Symbol Value :=
  ⟨table.entries.map (Prod.map Symbol.normal Value.folded)⟩

/-- The same bindings up to the spellings of names. -/
def Akin (first second : Table Symbol Value) : Prop :=
  first.normal = second.normal

theorem get?_normal :
    table.normal.get? name.normal = (table.get? name).map Value.folded := by
  simp only [get?, normal, List.find?_map, Option.map_map]
  have keys : ((fun entry : Symbol × Value => entry.1 == name.normal) ∘
      Prod.map Symbol.normal Value.folded) = fun entry => entry.1 == name :=
    funext fun entry => Symbol.normal_beq entry.1 name
  rw [keys]
  rfl

theorem contains_normal : table.normal.contains name.normal = table.contains name := by
  simp only [contains, normal, List.any_map]
  exact congrArg (List.any table.entries) (funext fun entry => Symbol.normal_beq entry.1 name)

theorem insert_normal (value : Value) :
    table.normal.insert name.normal (value.renamed Symbol.normal) =
      (table.insert name value).normal := by
  unfold insert
  rw [contains_normal]
  split
  · simp only [normal, List.map_map, mk.injEq]
    refine List.map_congr_left fun entry _ => ?_
    simp only [Function.comp_apply, Prod.map_fst, Symbol.normal_beq]
    split <;> rfl
  · rfl

variable {first second : Table Symbol Value} {name} {name' : Symbol} {value value' : Value}
  (akin : first.Akin second)
include akin

variable (same : Symbol.Same name name')
include same

theorem Akin.get? :
    (first.get? name).map Value.folded =
      (second.get? name').map Value.folded := by
  rw [← get?_normal, ← get?_normal, akin, Symbol.same_iff.mp same]

theorem Akin.contains :
    second.contains name' = first.contains name := by
  rw [← contains_normal second, ← contains_normal first, akin, Symbol.same_iff.mp same]

theorem Akin.insert
    (values : value.Akin value') : (first.insert name value).Akin (second.insert name' value') := by
  rw [Akin, ← insert_normal, ← insert_normal, akin, Symbol.same_iff.mp same, values]

end Table

/-! ## Stores and reports -/

/-- Stores that differ only in the spellings of names and in which of them are
interned. -/
structure Store.Akin (first second : Store) : Prop where
  maps : first.maps.map (FrameMap.renamed Symbol.normal) =
    second.maps.map (FrameMap.renamed Symbol.normal)
  constants : first.constants.Akin second.constants
  globals : first.globals.Akin second.globals
  nextObject : second.nextObject = first.nextObject

namespace Store

variable {first second third : Store}

theorem Akin.refl (store : Store) : store.Akin store := ⟨rfl, rfl, rfl, rfl⟩

theorem akin_intern (store : Store) (spelling : String) :
    store.Akin (store.intern spelling).2 := by
  unfold intern
  dsimp only
  split
  · exact .refl store
  · exact ⟨rfl, rfl, rfl, rfl⟩

theorem folded_intern (store : Store) (spelling : String) :
    (store.intern spelling).1.folded = foldCase spelling :=
  Symbol.normal_eq_iff.mp (normal_intern store spelling)

theorem find?_maps_normal (maps : List FrameMap) (slots : List Symbol) :
    (maps.find? (·.slots == slots)).map (FrameMap.renamed Symbol.normal) =
      (maps.map (FrameMap.renamed Symbol.normal)).find? (·.slots == slots.map Symbol.normal) := by
  rw [List.find?_map]
  have keys : ((fun map : FrameMap => map.slots == slots.map Symbol.normal) ∘
      FrameMap.renamed Symbol.normal) = fun map => map.slots == slots := by
    funext map
    rw [Bool.eq_iff_iff, Symbol.list_beq_iff, Function.comp_apply, Symbol.list_beq_iff]
    simp [FrameMap.renamed, Function.comp_def]
  rw [keys]

variable (akin : first.Akin second)
include akin

theorem Akin.symm : second.Akin first :=
  ⟨akin.maps.symm, akin.constants.symm, akin.globals.symm, akin.nextObject.symm⟩

theorem Akin.trans (akin' : second.Akin third) : first.Akin third :=
  ⟨akin.maps.trans akin'.maps, akin.constants.trans akin'.constants,
    akin.globals.trans akin'.globals, akin'.nextObject.trans akin.nextObject⟩

/-- Spellings of one name are interned alike. -/
theorem Akin.intern {spelling spelling' : String} (same : foldCase spelling' = foldCase spelling) :
    Symbol.Same (first.intern spelling).1 (second.intern spelling').1 ∧
      (first.intern spelling).2.Akin (second.intern spelling').2 := by
  refine ⟨?_, (akin_intern first spelling).symm.trans (akin.trans (akin_intern second spelling'))⟩
  rw [Symbol.Same, folded_intern, folded_intern, same]

theorem Akin.newObject :
    first.newObject.2.Akin second.newObject.2 :=
  { akin with nextObject := congrArg (· + 1) akin.nextObject }

theorem Akin.sameObject :
    first.nextObject = second.nextObject ∧ first.newObject.2.Akin second.newObject.2 :=
  ⟨akin.nextObject.symm, akin.newObject⟩

theorem Akin.makeString (text : String) :
    (first.makeString text).1.Akin (second.makeString text).1 ∧
      (first.makeString text).2.Akin (second.makeString text).2 := by
  refine ⟨?_, akin.newObject⟩
  change Value.string first.nextObject text = Value.string second.nextObject text
  rw [akin.nextObject]

theorem Akin.makeArray {className className' : Symbol}
    {elements elements' : List Value} (same : Symbol.Same className className')
    (values : Value.AkinAll elements elements') :
    (first.makeArray className elements).1.Akin (second.makeArray className' elements').1 ∧
      (first.makeArray className elements).2.Akin (second.makeArray className' elements').2 := by
  refine ⟨?_, akin.newObject⟩
  have values : elements.map _ = elements'.map _ := values
  simp [Value.Akin, Store.makeArray, Store.newObject, Value.renamed, akin.nextObject, Symbol.same_iff.mp same, values]

theorem Akin.makeBlock {block block' : CodeBlock} (blocks : block.Akin block') :
    (first.makeBlock block).1.Akin (second.makeBlock block').1 ∧
      (first.makeBlock block).2.Akin (second.makeBlock block').2 := by
  refine ⟨?_, akin.newObject⟩
  have blocks : block.renamed _ = block'.renamed _ := blocks
  simp only [Value.Akin, Store.makeBlock, Store.newObject, Value.renamed, akin.nextObject, blocks]

theorem Akin.makeFrameOver {shape shape' : FrameMap} {values values' : List Value}
    (shapes : shape.renamed Symbol.normal = shape'.renamed Symbol.normal)
    (akins : Value.AkinAll values values') :
    (first.makeFrameOver shape values).1.Akin (second.makeFrameOver shape' values').1 ∧
      (first.makeFrameOver shape values).2.Akin (second.makeFrameOver shape' values').2 := by
  refine ⟨?_, akin.newObject⟩
  have akins : values.map _ = values'.map _ := akins
  simp [Value.Akin, Store.makeFrameOver, Store.newObject, Value.renamed, akin.nextObject, shapes, akins]

/-- The same slots have maps that are akin. -/
theorem Akin.sharedMap {slots slots' : List Symbol} (same : Symbol.SameAll slots slots') :
    (first.sharedMap slots).1.renamed Symbol.normal =
        (second.sharedMap slots').1.renamed Symbol.normal ∧
      (first.sharedMap slots).2.Akin (second.sharedMap slots').2 := by
  have found : (first.maps.find? (·.slots == slots)).map (FrameMap.renamed Symbol.normal) =
      (second.maps.find? (·.slots == slots')).map (FrameMap.renamed Symbol.normal) := by
    rw [find?_maps_normal, find?_maps_normal, akin.maps, Symbol.sameAll_iff.mp same]
  unfold Store.sharedMap
  rcases both_of_map_eq found with ⟨known, known'⟩ | ⟨shape, shape', known, known', equal⟩
  · rw [known, known']
    have fresh : (⟨first.nextObject, slots, true⟩ : FrameMap).renamed Symbol.normal =
        (⟨second.nextObject, slots', true⟩ : FrameMap).renamed Symbol.normal := by
      simp only [FrameMap.renamed, akin.nextObject, Symbol.sameAll_iff.mp same]
    refine ⟨fresh, { akin.newObject with maps := ?_ }⟩
    exact List.cons_eq_cons.mpr ⟨fresh, akin.maps⟩
  · rw [known, known']
    exact ⟨equal, akin⟩

theorem Akin.constant? {name name' : Symbol} (same : Symbol.Same name name') :
    (first.constant? name).map Value.folded =
      (second.constant? name').map Value.folded :=
  akin.constants.get? same

theorem Akin.defineConstant {name name' : Symbol}
    {value value' : Value} (same : Symbol.Same name name') (values : value.Akin value') :
    (first.defineConstant name value).Akin (second.defineConstant name' value') :=
  { akin with constants := akin.constants.insert same values }

/-- One spelling is interned alike. -/
theorem Akin.internNormal (spelling : String) :
    (first.intern spelling).1.normal = (second.intern spelling).1.normal ∧
      (first.intern spelling).2.Akin (second.intern spelling).2 :=
  ⟨Symbol.same_iff.mp (akin.intern rfl).1, (akin.intern rfl).2⟩

end Store

/-- Failures for one reason at one place. -/
structure Failure.Akin (first second : Failure) : Prop where
  code : second.fault.code = first.fault.code
  span : second.span = first.span

/-- What a report is about. -/
def Diagnostic.topic (diagnostic : Diagnostic) : Code × Span :=
  (diagnostic.code, diagnostic.span)

/-- Reports that differ only in their texts. -/
structure DiagnosticBag.Akin (first second : DiagnosticBag) : Prop where
  topics : second.reversed.map Diagnostic.topic = first.reversed.map Diagnostic.topic
  keepsWarnings : second.keepsWarnings = first.keepsWarnings

namespace DiagnosticBag

variable {first second third : DiagnosticBag}

theorem Akin.refl (bag : DiagnosticBag) : bag.Akin bag := ⟨rfl, rfl⟩

variable (akin : first.Akin second)
include akin

theorem Akin.symm : second.Akin first :=
  ⟨akin.topics.symm, akin.keepsWarnings.symm⟩

theorem Akin.toList :
    second.toList.map Diagnostic.topic = first.toList.map Diagnostic.topic := by
  rw [DiagnosticBag.toList, DiagnosticBag.toList, List.map_reverse, List.map_reverse, akin.topics]

theorem Akin.trans (akin' : second.Akin third) : first.Akin third :=
  ⟨akin'.topics.trans akin.topics, akin'.keepsWarnings.trans akin.keepsWarnings⟩

theorem Akin.report {diagnostic diagnostic' : Diagnostic}
    (topic : diagnostic'.topic = diagnostic.topic) :
    (first.report diagnostic).Akin (second.report diagnostic') := by
  have code : diagnostic'.code = diagnostic.code := congrArg Prod.fst topic
  unfold DiagnosticBag.report Diagnostic.level
  rw [code, akin.keepsWarnings]
  split
  · exact akin
  · refine ⟨?_, rfl⟩
    rw [List.map_cons, List.map_cons, topic, akin.topics]

end DiagnosticBag

/-! ## Scopes -/

/-- Scopes that declare the same names up to their spellings, in functions that
need the same. -/
structure Scope.Akin (first second : Scope) : Prop where
  parent : second.parent = first.parent
  span : second.span = first.span
  name : first.name.map Symbol.normal = second.name.map Symbol.normal
  args : Symbol.SameAll first.args second.args
  locals : Symbol.SameAll first.locals second.locals
  constants : first.constants.Akin second.constants
  loopIndices : Symbol.SameAll first.loopIndices second.loopIndices
  explicitLocals : Symbol.SameAll first.explicitLocals second.explicitLocals
  has : second.has = first.has

namespace Scope

variable {first second : Scope} {name name' : Symbol}

theorem Akin.refl (scope : Scope) : scope.Akin scope := by
  constructor <;> rfl

theorem sameAll_addName {names names' : List Symbol} (all : Symbol.SameAll names names')
    (same : Symbol.Same name name') :
    Symbol.SameAll (addName names name) (addName names' name') := by
  unfold addName
  rw [all.contains_eq same]
  split
  · exact all
  · exact all.append (same.cons .nil)

variable (akin : first.Akin second)
include akin

theorem Akin.names : Symbol.SameAll first.names second.names :=
  akin.args.append akin.locals

theorem Akin.layout (compat : Compatibility) :
    FrameLayout.ofScope second compat = FrameLayout.ofScope first compat := by
  have receiver := congrFun akin.has .receiver
  have shares := congrFun akin.has .shares
  have reaches := congrFun akin.has .reaches
  have needs : FrameLayout.needsFrame second compat = FrameLayout.needsFrame first compat := by
    cases compat with
    | newton20 => rfl
    | native =>
      change (second.has .receiver || second.has .shares || second.has .reaches) = _
      rw [receiver, shares, reaches]
      rfl
  have word : FrameLayout.argumentWord second compat = FrameLayout.argumentWord first compat := by
    simp only [FrameLayout.argumentWord, akin.args.length_eq, akin.locals.length_eq]
  rw [FrameLayout.ofScope, FrameLayout.ofScope, needs, word]

variable (same : Symbol.Same name name')
include same

theorem Akin.owns :
    second.owns name' = first.owns name := by
  rw [Scope.owns, Scope.owns, akin.args.contains_eq same, akin.locals.contains_eq same]

theorem Akin.slotOf? :
    second.slotOf? name' = first.slotOf? name :=
  akin.names.findIdx?_eq same

theorem Akin.isBareLoopIndex :
    second.isBareLoopIndex name' = first.isBareLoopIndex name := by
  simp only [Scope.isBareLoopIndex, akin.loopIndices.contains_eq same,
    akin.explicitLocals.contains_eq same, akin.args.contains_eq same]

end Scope

/-- Scopes that are akin one by one. -/
structure Scopes.Akin (first second : Scopes) : Prop where
  size : second.scopes.size = first.scopes.size
  byFunction : second.byFunction = first.byFunction
  get : ∀ id, (first.get id).Akin (second.get id)

namespace Scopes

variable {first second : Scopes} {name name' : Symbol}

theorem Akin.refl (scopes : Scopes) : scopes.Akin scopes := ⟨rfl, rfl, fun _ => .refl _⟩

variable (akin : first.Akin second)
include akin

theorem Akin.update (id : ScopeId) {change change' : Scope → Scope}
    (changes : ∀ scope scope' : Scope, scope.Akin scope' → (change scope).Akin (change' scope')) :
    (first.update id change).Akin (second.update id change') where
  size := by rw [size_update, size_update, akin.size]
  byFunction := akin.byFunction
  get other := by
    rw [get_update, get_update, akin.size]
    split
    · exact changes _ _ (akin.get other)
    · exact akin.get other

theorem Akin.climb (steps : Nat) (id : ScopeId) :
    second.climb steps id = first.climb steps id := by
  induction steps generalizing id with
  | zero => rfl
  | succ steps ih =>
    rw [Scopes.climb, Scopes.climb, (akin.get id).parent]
    split
    · rw [ih]
    · rfl

theorem Akin.chain (id : ScopeId) :
    second.chain id = first.chain id :=
  akin.climb (id + 1) id

theorem Akin.scopeOf? (function : FuncId) :
    second.scopeOf? function = first.scopeOf? function := by
  rw [Scopes.scopeOf?, Scopes.scopeOf?, akin.byFunction]

variable (same : Symbol.Same name name')
include same

theorem Akin.any_owns (ids : List ScopeId) :
    (ids.any fun id => (second.get id).owns name') = ids.any fun id => (first.get id).owns name :=
  congrArg (List.any ids) (funext fun id => (akin.get id).owns same)

theorem Akin.constantAlong (ids : List ScopeId) :
    (first.constantAlong name ids).map Value.folded =
      (second.constantAlong name' ids).map Value.folded := by
  induction ids with
  | nil => rfl
  | cons id rest ih =>
    have found := (akin.get id).constants.get? same
    rw [Scopes.constantAlong, Scopes.constantAlong, (akin.get id).owns same]
    split
    · rfl
    · rcases both_of_map_eq found with ⟨known, known'⟩ | ⟨value, value', known, known', equal⟩
      · rw [known, known']
        exact ih
      · rw [known, known']
        exact congrArg some equal

theorem Akin.constant? (id : ScopeId) :
    (first.constant? id name).map Value.folded =
      (second.constant? id name').map Value.folded := by
  rw [Scopes.constant?, Scopes.constant?, akin.chain]
  exact akin.constantAlong same _

/-- A name stands for the same in both. -/
theorem Akin.resolve (id : ScopeId) :
    (first.resolve id name).Like Value.Akin (second.resolve id name') := by
  have found := akin.constant? same id
  rw [Scopes.resolve, Scopes.resolve, (akin.get id).slotOf? same]
  cases (first.get id).slotOf? name with
  | some index => exact .slot index
  | none =>
    rcases both_of_map_eq found with ⟨known, known'⟩ | ⟨value, value', known, known', equal⟩
    · rw [known, known', akin.chain, akin.any_owns same]
      dsimp only
      split
      · exact .outer
      · exact .environment
    · rw [known, known']
      exact .constant equal

end Scopes

end NewtonScript
