import NewtonScript.Table
import NewtonScript.Trie
import NewtonScript.Value

/-!
# The object store

The store keeps what outlives one compilation: the names interned so far, the
slot maps handed out for sharing, and the global constants and variables.  A
name is interned once for all spellings that differ only in case, under the
spelling that came first and in storage of its own.  New heap objects are numbered in the order in
which they are made.
-/

namespace NewtonScript

/-- Interned names, each under its folded spelling, and their number.  No two
of them have the same storage. -/
structure Interned where
  names : Trie Symbol := .empty
  count : Nat := 0
  folded : ∀ key name, names.get? key = some name → name.folded.toList = key := by simp
  stored : ∀ key name, names.get? key = some name →
    ∃ number, number < count ∧ name.storage = some number := by simp
  distinct : ∀ key key' name name', names.get? key = some name → names.get? key' = some name' →
    name.storage = name'.storage → key = key' := by simp

namespace Interned

def empty : Interned := {}

/-- The interned form of a name. -/
def find? (interned : Interned) (name : Symbol) : Option Symbol :=
  interned.names.get? name.folded.toList

/-- The name that is interned next, in new storage. -/
def fresh (interned : Interned) (name : Symbol) : Symbol :=
  name.storedAt interned.count

/-- What is known after a name was added is new, or it was known before. -/
theorem get?_insert_fresh {interned : Interned} {name known : Symbol} {key : List Char}
    (found : (interned.names.insert (interned.fresh name) name.folded.toList).get? key = some known) :
    (key = name.folded.toList ∧ known = interned.fresh name) ∨
      interned.names.get? key = some known := by
  rw [Trie.get?_insert] at found
  split at found
  · exact .inl ⟨by assumption, (Option.some.inj found).symm⟩
  · exact .inr found

theorem storage_ne_fresh {interned : Interned} {name known : Symbol} {key : List Char}
    (found : interned.names.get? key = some known) :
    known.storage ≠ (interned.fresh name).storage := by
  obtain ⟨number, less, stored⟩ := interned.stored key known found
  rw [stored]
  exact fun equal => Nat.ne_of_lt less (Option.some.inj equal)

/-- Intern a name that was not interned before. -/
def add (interned : Interned) (name : Symbol) : Interned where
  names := interned.names.insert (interned.fresh name) name.folded.toList
  count := interned.count + 1
  folded key known found := by
    obtain ⟨rfl, rfl⟩ | old := get?_insert_fresh found
    · rfl
    · exact interned.folded key known old
  stored key known found := by
    obtain ⟨-, rfl⟩ | old := get?_insert_fresh found
    · exact ⟨_, Nat.lt_succ_self _, rfl⟩
    · obtain ⟨number, less, stored⟩ := interned.stored key known old
      exact ⟨number, Nat.lt_succ_of_lt less, stored⟩
  distinct key key' known known' found found' same := by
    obtain ⟨rfl, rfl⟩ | old := get?_insert_fresh found <;>
      obtain ⟨rfl, rfl⟩ | old' := get?_insert_fresh found'
    · rfl
    · exact absurd same.symm (storage_ne_fresh old')
    · exact absurd same (storage_ne_fresh old)
    · exact interned.distinct key key' known known' old old' same

theorem beq_of_find? {interned : Interned} {name known : Symbol}
    (found : interned.find? name = some known) : (known == name) = true :=
  Symbol.beq_iff.mpr (String.toList_inj.mp (interned.folded _ _ found))

end Interned

/-- Interned names, shared maps, global constants, global variables, and the
number of the next heap object. -/
structure Store where
  symbols : Interned := .empty
  maps : List FrameMap := []
  constants : Table Symbol Value := .empty
  globals : Table Symbol Value := .empty
  nextObject : ObjectId := 0

namespace Store

def empty : Store := {}

instance : Inhabited Store := ⟨.empty⟩

/-- The interned name for a spelling. -/
def intern (spelling : String) (store : Store) : Symbol × Store :=
  let name := Symbol.ofString spelling
  match store.symbols.find? name with
  | some known => (known, store)
  | none => (store.symbols.fresh name, { store with symbols := store.symbols.add name })

/-- The number of names that are distinct up to case. -/
def symbolCount (store : Store) : Nat :=
  store.symbols.count

/-- A number for a new object. -/
def newObject (store : Store) : ObjectId × Store :=
  (store.nextObject, { store with nextObject := store.nextObject + 1 })

/-- Make a string. -/
def makeString (text : String) (store : Store) : Value × Store :=
  let (id, store) := store.newObject
  (.string id text, store)

/-- Make an array. -/
def makeArray (className : Symbol) (elements : List Value) (store : Store) : Value × Store :=
  let (id, store) := store.newObject
  (.array id className elements, store)

/-- A new frame with a map of its own. -/
def makeFrame (slots : List Symbol) (values : List Value) (store : Store) : Value × Store :=
  let (mapId, store) := store.newObject
  let (id, store) := store.newObject
  (.frame id ⟨mapId, slots, false⟩ values, store)

/-- A new frame over a given map. -/
def makeFrameOver (map : FrameMap) (values : List Value) (store : Store) : Value × Store :=
  let (id, store) := store.newObject
  (.frame id map values, store)

/-- Make an object of a code block. -/
def makeBlock (block : CodeBlock) (store : Store) : Value × Store :=
  let (id, store) := store.newObject
  (.block id block, store)

/-- The map that all frames with these slots share. -/
def sharedMap (slots : List Symbol) (store : Store) : FrameMap × Store :=
  match store.maps.find? (·.slots == slots) with
  | some known => (known, store)
  | none =>
      let (id, store) := store.newObject
      let map : FrameMap := ⟨id, slots, true⟩
      (map, { store with maps := map :: store.maps })

/-- The value of a global constant. -/
def constant? (store : Store) (name : Symbol) : Option Value :=
  store.constants.get? name

/-- Define a global constant; the last definition holds. -/
def defineConstant (name : Symbol) (value : Value) (store : Store) : Store :=
  { store with constants := store.constants.insert name value }

/-- Define a global variable. -/
def defineGlobal (spelling : String) (value : Value) (store : Store) : Store :=
  let (name, store) := store.intern spelling
  { store with globals := store.globals.insert name value }

/-- Whether a name is a global variable or function. -/
def hasGlobal (store : Store) (name : Symbol) : Bool :=
  store.globals.contains name

end Store

end NewtonScript
