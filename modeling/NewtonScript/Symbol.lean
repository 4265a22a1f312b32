/-!
# Names

A symbol is a name.  Two symbols are the same name when their spellings agree
up to the case of ASCII letters, which the hash of a name leaves out as well;
the spelling itself is kept for printing.  Names that are not plain identifiers
are printed between bars.
-/

namespace NewtonScript

/-- A spelling with its ASCII letters in lower case. -/
def foldCase (spelling : String) : String :=
  String.ofList (spelling.toList.map Char.toLower)

theorem toNat_toLower (c : Char) :
    c.toLower.toNat = if 65 ≤ c.toNat ∧ c.toNat ≤ 90 then c.toNat + 32 else c.toNat := by
  have upper : (c.val ≥ 'A'.val ∧ c.val ≤ 'Z'.val) ↔ 65 ≤ c.toNat ∧ c.toNat ≤ 90 := by
    simp [UInt32.le_iff_toNat_le]
  change (dite (c.val ≥ 'A'.val ∧ c.val ≤ 'Z'.val) _ _ : Char).toNat = _
  by_cases isUpper : 65 ≤ c.toNat ∧ c.toNat ≤ 90
  · rw [dif_pos (upper.mpr isUpper), if_pos isUpper]
    have small : c.toNat + 32 < 2 ^ 32 := by omega
    exact (UInt32.toNat_add c.val 32).trans (Nat.mod_eq_of_lt small)
  · rw [dif_neg (mt upper.mp isUpper), if_neg isUpper]

/-- A name, with the folded spelling by which it is compared and the number of
the storage that a store keeps for it.  A name that was not interned has no
storage. -/
structure Symbol where
  spelling : String
  storage : Option Nat := none
  folded : String := foldCase spelling
  folded_eq : folded = foldCase spelling := by rfl

namespace Symbol

/-- A name that is not interned. -/
def ofString (spelling : String) : Symbol := { spelling }

/-- A name in the storage with a number. -/
def storedAt (name : Symbol) (number : Nat) : Symbol :=
  { name with storage := some number }

instance : Inhabited Symbol := ⟨ofString ""⟩

/-- Names are compared by their folded spellings. -/
instance : BEq Symbol := ⟨fun first second => first.folded == second.folded⟩

theorem beq_iff {first second : Symbol} :
    (first == second) = true ↔ first.folded = second.folded := by
  change (first.folded == second.folded) = true ↔ _
  exact beq_iff_eq

instance : EquivBEq Symbol where
  rfl := beq_iff.mpr rfl
  symm equal := beq_iff.mpr (beq_iff.mp equal).symm
  trans first second := beq_iff.mpr ((beq_iff.mp first).trans (beq_iff.mp second))

theorem list_beq_iff {first second : List Symbol} :
    (first == second) = true ↔ first.map folded = second.map folded := by
  induction first generalizing second with
  | nil => cases second <;> simp
  | cons name rest ih =>
      cases second with
      | nil => simp
      | cons name' rest' => simp [beq_iff, ih]

theorem length_eq_of_beq {first second : List Symbol} (equal : (first == second) = true) :
    first.length = second.length := by
  simpa using congrArg List.length (list_beq_iff.mp equal)

/-- Whether two names are kept as one object. -/
def sameStorage (first second : Symbol) : Bool :=
  first.storage.isSome && first.storage == second.storage

/-- What a hash is computed with: its state takes in bytes and lengths. -/
structure Hasher where
  State : Type
  start : State
  writeByte : State → UInt8 → State
  writeLength : State → Nat → State
  finish : State → UInt64

/-- A byte in lower case, if it is that of an ASCII letter. -/
def lowerByte (byte : UInt8) : UInt8 :=
  if 65 ≤ byte ∧ byte ≤ 90 then byte + 32 else byte

/-- The bytes of a name that are hashed: those of its spelling in lower case,
and one that is in no spelling. -/
def hashed (name : Symbol) : List UInt8 :=
  name.spelling.toUTF8.data.toList.map lowerByte ++ [0xFF]

namespace Hasher

variable (hasher : Hasher)

/-- A state after a name. -/
def write (state : hasher.State) (name : Symbol) : hasher.State :=
  name.hashed.foldl hasher.writeByte state

/-- The hash of a name. -/
def hash (name : Symbol) : UInt64 :=
  hasher.finish (hasher.write hasher.start name)

/-- The hash of a row of names, which starts with their number. -/
def hashAll (names : List Symbol) : UInt64 :=
  hasher.finish (names.foldl hasher.write (hasher.writeLength hasher.start names.length))

end Hasher

/-- Whether a name can be printed as it is: a letter or underscore, then
letters, digits and underscores, all of ASCII. -/
def isPlain (name : Symbol) : Bool :=
  match name.spelling.toList with
  | [] => false
  | first :: rest =>
      (first.isAlpha || first == '_') && rest.all fun c => c.isAlphanum || c == '_'

/-- A character of a name between bars; bars and backslashes are escaped. -/
def barred (c : Char) : List Char :=
  if c == '|' || c == '\\' then ['\\', c] else [c]

/-- A name as it is written, between bars if need be. -/
def text (name : Symbol) : String :=
  if name.isPlain then
    name.spelling
  else
    String.ofList ('|' :: (name.spelling.toList.flatMap barred ++ ['|']))

end Symbol

end NewtonScript
