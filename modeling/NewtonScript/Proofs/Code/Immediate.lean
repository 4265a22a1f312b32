import NewtonScript.Proofs.Code.Fragment

/-!
# Immediate values are read back

The operand of a value that fits into an operand stands for that value.
-/

namespace NewtonScript.Bytecode.Immediate

theorem toNat_and_15 (operand : UInt16) : (operand &&& 0xF).toNat = operand.toNat % 16 := by
  exact Nat.and_two_pow_sub_one_eq_mod _ 4

theorem toNat_and_3 (operand : UInt16) : (operand &&& 3).toNat = operand.toNat % 4 := by
  exact Nat.and_two_pow_sub_one_eq_mod _ 2

theorem toNat_ofInt (n : Int) : ((ofInt n).toNat : Int) = 4 * n % 65536 := by
  have small : (4 * n % 65536).toNat < 65536 := by omega
  rw [ofInt, toNat_toUInt16 small]
  omega

theorem toValue_ofInt {n : Int} (low : minImmediate ≤ n) (high : n ≤ maxImmediate) :
    toValue (ofInt n) = .int n := by
  have word := toNat_ofInt n
  unfold minImmediate at low
  unfold maxImmediate at high
  generalize ofInt n = operand at word ⊢
  have notNil : operand ≠ nilRef := by
    rintro rfl
    simp [nilRef] at word
    omega
  have notTruth : operand ≠ truthRef := by
    rintro rfl
    simp [truthRef] at word
    omega
  have notChar : ¬ operand &&& 0xF = 6 := by
    intro equal
    have := congrArg UInt16.toNat equal
    rw [toNat_and_15] at this
    simp at this
    omega
  have isInt : operand &&& 3 = 0 := by
    apply UInt16.toNat_inj.mp
    rw [toNat_and_3]
    simp
    omega
  simp only [toValue, notNil, notTruth, notChar, isInt, if_true, if_false]
  have value : signed operand / 4 = n := by
    unfold signed
    have below : operand < 0x8000 ↔ operand.toNat < 32768 := Iff.rfl
    split
    · rename_i small
      have := below.mp small
      omega
    · rename_i large
      have := mt below.mpr large
      omega
  rw [value]

theorem toValue_char {unit : UInt16} (small : unit < 0x1000) :
    toValue (unit <<< 4 ||| 6) = .char unit := by
  have bound : unit.toNat < 4096 := small
  have word : (unit <<< 4 ||| 6).toNat = unit.toNat * 16 + 6 := by
    have six : (6 : Nat) < 2 ^ 4 := by decide
    have shifted : (unit <<< 4).toNat = 2 ^ 4 * unit.toNat := by
      simp [Nat.shiftLeft_eq]
      omega
    rw [UInt16.toNat_or, shifted]
    change 2 ^ 4 * unit.toNat ||| 6 = _
    rw [← Nat.two_pow_add_eq_or_of_lt six]
    omega
  generalize unit <<< 4 ||| 6 = operand at word
  have notNil : operand ≠ nilRef := by
    rintro rfl
    simp [nilRef] at word
  have notTruth : operand ≠ truthRef := by
    rintro rfl
    simp [truthRef] at word
    omega
  have isChar : operand &&& 0xF = 6 := by
    apply UInt16.toNat_inj.mp
    rw [toNat_and_15, word]
    simp
  simp only [toValue, notNil, notTruth, isChar, if_true, if_false]
  have value : operand >>> 4 = unit := by
    apply UInt16.toNat_inj.mp
    simp [Nat.shiftRight_eq_div_pow]
    omega
  rw [value]

/-- The operand of a value stands for that value. -/
theorem toValue_of_ofValue? {value : Value} {operand : UInt16}
    (found : ofValue? value = some operand) : toValue operand = value := by
  cases value <;> simp only [ofValue?, reduceCtorEq, Option.some.injEq,
    Option.ite_none_right_eq_some] at found
  · exact found ▸ rfl
  · exact found ▸ rfl
  · obtain ⟨⟨low, high⟩, rfl⟩ := found
    exact toValue_ofInt low high
  · obtain ⟨small, rfl⟩ := found
    exact toValue_char small

end NewtonScript.Bytecode.Immediate
