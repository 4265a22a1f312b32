import NewtonScript.Emission.Function
import NewtonScript.Scope.Declaration

/-!
# What emission does to the store

Emission interns names, makes objects and asks for shared maps.  Global
constants stay, maps are only added, and objects are numbered upwards.

Two frame maps of a coherent store that carry one number are one map.  In a
store that was made by the store's own operations every object has a number of
its own, so this holds of every store a program can have; it is said here of
the maps that matter, those that are shared and those that are known as values.
-/

namespace NewtonScript

/-- Whether a value is neither a frame map nor a code block. -/
def Value.isPlain : Value → Bool
  | .map _ => false
  | .block _ _ => false
  | _ => true

mutual

/-- Whether the integers in a value, the code blocks apart, are in range. -/
def Value.fits : Value → Bool
  | .int n => minInt ≤ n && n ≤ maxInt
  | .array _ _ elements => Value.allFit elements
  | .frame _ _ values => Value.allFit values
  | _ => true

/-- Whether the integers in values are in range. -/
def Value.allFit : List Value → Bool
  | [] => true
  | value :: rest => value.fits && Value.allFit rest

end

@[simp]
theorem Value.allFit_eq (values : List Value) : allFit values = values.all fits := by
  induction values with
  | nil => rfl
  | cons value rest ih => rw [allFit, ih, List.all_cons]

/-- Whether a value is one that the compiler makes on its own: it is neither a
map nor a code block, and its integers are in range. -/
def Value.isOwn (value : Value) : Bool :=
  value.isPlain && value.fits

theorem isOwn_negateConstant? {value negated : Value}
    (found : negateConstant? value = some negated) : negated.isOwn := by
  cases value <;> simp only [negateConstant?, reduceCtorEq, Option.ite_none_right_eq_some,
    Option.some.injEq] at found
  · obtain ⟨range, rfl⟩ := found
    simpa [Value.isOwn, Value.isPlain, Value.fits] using range
  · exact found ▸ rfl

@[simp]
theorem Value.sameLiteral_refl (value : Value) : value.sameLiteral value = true := by
  cases value <;> simp [Value.sameLiteral]

namespace Store

variable {known : Value → Prop}

/-- A store after actions that define nothing. -/
structure Extends (before after : Store) : Prop where
  constants : after.constants = before.constants
  maps : before.maps ⊆ after.maps
  nextObject : before.nextObject ≤ after.nextObject

theorem Extends.refl (store : Store) : store.Extends store :=
  ⟨rfl, List.Subset.refl _, Nat.le_refl _⟩

theorem Extends.trans {first second third : Store} (earlier : first.Extends second)
    (later : second.Extends third) : first.Extends third :=
  ⟨later.constants.trans earlier.constants, List.Subset.trans earlier.maps later.maps,
    Nat.le_trans earlier.nextObject later.nextObject⟩

/-- The maps that are shared, and those among the known values. -/
def HasMap (known : Value → Prop) (store : Store) (shape : FrameMap) : Prop :=
  shape ∈ store.maps ∨ known (.map shape)

/-- A map is found by its number, and no later object gets that number. -/
structure Coherent (known : Value → Prop) (store : Store) : Prop where
  id_lt : ∀ shape, store.HasMap known shape → shape.id < store.nextObject
  id_injective : ∀ first second, store.HasMap known first → store.HasMap known second →
    first.id = second.id → first = second

theorem Coherent.mono {known' : Value → Prop} {store : Store} (coherent : store.Coherent known)
    (fewer : ∀ shape, known' (.map shape) → known (.map shape)) : store.Coherent known' where
  id_lt shape has := coherent.id_lt shape (has.imp_right (fewer _))
  id_injective first second has has' :=
    coherent.id_injective first second (has.imp_right (fewer _)) (has'.imp_right (fewer _))

theorem Coherent.of_same_maps {before after : Store} (coherent : before.Coherent known)
    (maps : after.maps = before.maps) (next : before.nextObject ≤ after.nextObject) :
    after.Coherent known := by
  have same : ∀ shape, after.HasMap known shape ↔ before.HasMap known shape := by
    simp [HasMap, maps]
  constructor
  · intro shape has
    exact Nat.lt_of_lt_of_le (coherent.id_lt shape ((same shape).mp has)) next
  · intro first second hasFirst hasSecond
    exact coherent.id_injective first second ((same first).mp hasFirst) ((same second).mp hasSecond)

/-- An action on a store that defines nothing and keeps a store coherent. -/
structure Harmless (known : Value → Prop) (before after : Store) : Prop where
  extends_ : before.Extends after
  coherent : before.Coherent known → after.Coherent known

theorem Harmless.refl (known : Value → Prop) (store : Store) : Harmless known store store :=
  ⟨.refl store, id⟩

theorem Harmless.trans {first second third : Store} (earlier : Harmless known first second)
    (later : Harmless known second third) : Harmless known first third :=
  ⟨earlier.extends_.trans later.extends_, later.coherent ∘ earlier.coherent⟩

theorem Harmless.of_same_maps {before after : Store}
    (constants : after.constants = before.constants) (maps : after.maps = before.maps)
    (next : before.nextObject ≤ after.nextObject) : Harmless known before after :=
  ⟨⟨constants, by rw [maps]; exact List.Subset.refl _, next⟩,
    fun coherent => coherent.of_same_maps maps next⟩

/-! ## The operations -/

theorem intern_eq (spelling : String) (store : Store) :
    (store.intern spelling).1 == Symbol.ofString spelling := by
  simp only [intern]
  cases found : store.symbols.find? (Symbol.ofString spelling) with
  | some known => exact Interned.beq_of_find? found
  | none => exact Symbol.beq_iff.mpr rfl

theorem harmless_intern (known : Value → Prop) (spelling : String) (store : Store) :
    Harmless known store (store.intern spelling).2 := by
  simp only [intern]
  cases store.symbols.find? (Symbol.ofString spelling) with
  | some _ => exact .refl known store
  | none => exact .of_same_maps rfl rfl (Nat.le_refl _)

theorem harmless_makeString (known : Value → Prop) (text : String) (store : Store) :
    Harmless known store (store.makeString text).2 :=
  .of_same_maps rfl rfl (Nat.le_succ _)

theorem harmless_makeArray (known : Value → Prop) (className : Symbol) (elements : List Value)
    (store : Store) : Harmless known store (store.makeArray className elements).2 :=
  .of_same_maps rfl rfl (Nat.le_succ _)

theorem harmless_makeFrame (known : Value → Prop) (slots : List Symbol) (values : List Value)
    (store : Store) : Harmless known store (store.makeFrame slots values).2 :=
  .of_same_maps rfl rfl (Nat.le_add_right _ 2)

theorem harmless_makeFrameOver (known : Value → Prop) (map : FrameMap) (values : List Value)
    (store : Store) : Harmless known store (store.makeFrameOver map values).2 :=
  .of_same_maps rfl rfl (Nat.le_succ _)

theorem harmless_makeBlock (known : Value → Prop) (block : CodeBlock) (store : Store) :
    Harmless known store (store.makeBlock block).2 :=
  .of_same_maps rfl rfl (Nat.le_succ _)

/-- A shared map has the slots that were asked for. -/
theorem sharedMap_slots (slots : List Symbol) (store : Store) :
    (store.sharedMap slots).1.slots == slots := by
  simp only [sharedMap]
  cases found : store.maps.find? (·.slots == slots) with
  | some known => simpa using List.find?_some found
  | none => exact BEq.rfl

theorem sharedMap_mem (slots : List Symbol) (store : Store) :
    (store.sharedMap slots).1 ∈ (store.sharedMap slots).2.maps := by
  simp only [sharedMap]
  cases found : store.maps.find? (·.slots == slots) with
  | some known => exact List.mem_of_find?_eq_some found
  | none => exact List.mem_cons_self

theorem harmless_sharedMap (known : Value → Prop) (slots : List Symbol) (store : Store) :
    Harmless known store (store.sharedMap slots).2 := by
  simp only [sharedMap]
  cases store.maps.find? (·.slots == slots) with
  | some _ => exact .refl known store
  | none =>
    refine ⟨⟨rfl, fun _ member => List.mem_cons_of_mem _ member, Nat.le_succ _⟩, ?_⟩
    intro coherent
    have split : ∀ shape, HasMap known
        { store with
          nextObject := store.nextObject + 1
          maps := ⟨store.nextObject, slots, true⟩ :: store.maps } shape →
        shape = ⟨store.nextObject, slots, true⟩ ∨ store.HasMap known shape := by
      rintro shape (member | value)
      · rcases List.mem_cons.mp member with new | old
        · exact .inl new
        · exact .inr (.inl old)
      · exact .inr (.inr value)
    constructor
    · intro shape has
      rcases split shape has with rfl | old
      · exact Nat.lt_succ_self _
      · exact Nat.lt_succ_of_lt (coherent.id_lt shape old)
    · intro first second hasFirst hasSecond equal
      -- The new number is larger than all the old ones.
      rcases split first hasFirst with rfl | oldFirst <;>
        rcases split second hasSecond with rfl | oldSecond
      · rfl
      · exact absurd equal.symm (Nat.ne_of_lt (coherent.id_lt second oldSecond))
      · exact absurd equal (Nat.ne_of_lt (coherent.id_lt first oldFirst))
      · exact coherent.id_injective first second oldFirst oldSecond equal

end Store

end NewtonScript
