import NewtonScript.Proofs.Code.Decode

/-!
# What bytes are read as

A row of bytes is read as instructions exactly when it consists of the bytes of
these instructions, one after the other.  Otherwise it begins with the bytes of
some instructions, and reading stops behind them, at a byte that begins no
instruction or at a wide instruction that is cut short.
-/

namespace NewtonScript.Bytecode

variable {error : DecodeError}

/-- Bytes at which reading stops, given their position, and why. -/
inductive Stuck (offset : Nat) : List UInt8 → DecodeError → Prop where
  | unknownOpcode {byte : UInt8} {rest : List UInt8}
      (unknown : Opcode.ofCode? (byte >>> 3) = none) :
      Stuck offset (byte :: rest) (.unknownOpcode offset byte)
  | truncated {byte : UInt8} {rest : List UInt8} {op : Opcode}
      (known : Opcode.ofCode? (byte >>> 3) = some op) (wide : byte &&& 7 = wideMark)
      (short : rest.length < 2) : Stuck offset (byte :: rest) (.truncated offset)

/-! ## Single instructions -/

theorem code_or_low (byte : UInt8) : (byte >>> 3) <<< 3 ||| (byte &&& 7) = byte := by
  apply UInt8.toNat_inj.mp
  have small : byte.toNat < 2 ^ 8 := byte.toNat_lt
  have low : byte.toNat % 2 ^ 3 < 2 ^ 3 := Nat.mod_lt _ (by decide)
  have shift : UInt8.toNat 3 % 8 = 3 := rfl
  have mask : byte.toNat &&& UInt8.toNat 7 = byte.toNat % 2 ^ 3 :=
    Nat.and_two_pow_sub_one_eq_mod byte.toNat 3
  have high : byte.toNat >>> 3 <<< 3 % 2 ^ 8 = 2 ^ 3 * (byte.toNat / 2 ^ 3) := by
    omega
  simp only [UInt8.toNat_or, UInt8.toNat_shiftLeft, UInt8.toNat_shiftRight, UInt8.toNat_and, shift,
    mask, high]
  rw [← Nat.two_pow_add_eq_or_of_lt low]
  exact Nat.div_add_mod _ _

theorem toNat_low_lt (byte : UInt8) : (byte &&& 7).toNat < 8 := by
  have mask : byte.toNat &&& UInt8.toNat 7 = byte.toNat % 2 ^ 3 :=
    Nat.and_two_pow_sub_one_eq_mod byte.toNat 3
  rw [UInt8.toNat_and, mask]
  exact Nat.mod_lt _ (by decide)

theorem encode_short {byte : UInt8} {op : Opcode} (known : Opcode.ofCode? (byte >>> 3) = some op)
    (short : byte &&& 7 ≠ wideMark) :
    (Instruction.mk op (byte &&& 7).toUInt16 false).Canonical ∧
      (Instruction.mk op (byte &&& 7).toUInt16 false).encode = [byte] := by
  constructor
  · intro _
    have low := toNat_low_lt byte
    have other : (byte &&& 7).toNat ≠ 7 := fun equal => short (UInt8.toNat_inj.mp equal)
    have holds : (byte &&& 7).toUInt16.toNat ≤ 6 := by
      rw [UInt8.toNat_toUInt16]
      omega
    exact holds
  · simp [Instruction.encode, Opcode.code_of_ofCode? known, code_or_low]

theorem encode_wide {byte high low : UInt8} {op : Opcode}
    (known : Opcode.ofCode? (byte >>> 3) = some op) (wide : byte &&& 7 = wideMark) :
    (Instruction.mk op (Decoding.operandOf high low) true).encode = [byte, high, low] := by
  have first : op.code <<< 3 ||| wideMark = byte := by
    rw [Opcode.code_of_ofCode? known, ← wide, code_or_low]
  have operand : (Decoding.operandOf high low).toNat = 2 ^ 8 * high.toNat + low.toNat := by
    have smallHigh : high.toNat < 2 ^ 8 := high.toNat_lt
    have smallLow : low.toNat < 2 ^ 8 := low.toNat_lt
    have shift : UInt16.toNat 8 % 16 = 8 := rfl
    have shifted : high.toNat <<< 8 % 2 ^ 16 = 2 ^ 8 * high.toNat := by
      omega
    simp only [Decoding.operandOf, UInt16.toNat_or, UInt16.toNat_shiftLeft, UInt8.toNat_toUInt16,
      shift, shifted]
    exact (Nat.two_pow_add_eq_or_of_lt smallLow _).symm
  have smallLow : low.toNat < 2 ^ 8 := low.toNat_lt
  have smallHigh : high.toNat < 2 ^ 8 := high.toNat_lt
  have second : (Decoding.operandOf high low >>> 8).toUInt8 = high := by
    have shift : UInt16.toNat 8 % 16 = 8 := rfl
    apply UInt8.toNat_inj.mp
    simp only [UInt16.toNat_toUInt8, UInt16.toNat_shiftRight, operand, shift,
      Nat.shiftRight_eq_div_pow]
    omega
  have third : (Decoding.operandOf high low).toUInt8 = low := by
    apply UInt8.toNat_inj.mp
    rw [UInt16.toNat_toUInt8]
    omega
  simp [Instruction.encode, first, second, third]

/-! ## Rows -/

/-- An instruction stands at the front of some bytes, or reading stops there. -/
theorem exists_instruction (byte : UInt8) (rest : List UInt8) (offset : Nat) :
    (∃ (instr : Instruction) (behind : List UInt8), instr.Canonical ∧
      byte :: rest = instr.encode ++ behind) ∨
        ∃ error, Stuck offset (byte :: rest) error := by
  cases known : Opcode.ofCode? (byte >>> 3) with
  | none => exact .inr ⟨_, .unknownOpcode known⟩
  | some op =>
    by_cases wide : byte &&& 7 = wideMark
    · match rest with
      | [] => exact .inr ⟨_, .truncated known wide (by simp)⟩
      | [_] => exact .inr ⟨_, .truncated known wide (by simp)⟩
      | high :: low :: behind =>
        exact .inl ⟨⟨op, Decoding.operandOf high low, true⟩, behind,
          Instruction.canonical_of_wide rfl, by rw [encode_wide known wide]; rfl⟩
    · obtain ⟨canonical, encoded⟩ := encode_short known wide
      exact .inl ⟨_, rest, canonical, by rw [encoded]; rfl⟩

/-- Bytes are those of a row of instructions, or of one behind which reading
stops. -/
theorem exists_row (bytes : List UInt8) (offset : Nat) :
    ∃ row rest, (∀ instr ∈ row, instr.Canonical) ∧
      bytes = row.flatMap Instruction.encode ++ rest ∧
        (rest = [] ∨ ∃ error, Stuck (offset + rowSize row) rest error) := by
  induction length : bytes.length using Nat.strongRecOn generalizing bytes offset with
  | ind length' ih =>
    subst length
    match bytes with
    | [] => exact ⟨[], [], by simp, rfl, .inl rfl⟩
    | byte :: rest =>
      rcases exists_instruction byte rest offset with ⟨instr, behind, canonical, split⟩ | stuck
      · have shorter : behind.length < (byte :: rest).length := by
          have positive := instr.size_pos
          rw [split, List.length_append, Instruction.length_encode]
          omega
        obtain ⟨row, last, canonicals, equal, ends⟩ := ih _ shorter behind (offset + instr.size) rfl
        refine ⟨instr :: row, last, ?_, ?_, ?_⟩
        · exact List.forall_mem_cons.mpr ⟨canonical, canonicals⟩
        · rw [split, equal, List.flatMap_cons, List.append_assoc]
        · rwa [rowSize, ← Nat.add_assoc]
      · exact ⟨[], byte :: rest, by simp, rfl, .inr stuck⟩

theorem walk_stuck {rest : List UInt8} {offset : Nat} (stuck : Stuck offset rest error)
    (found : List Located) : (Decoding.walk rest offset found).error = some error := by
  cases stuck with
  | unknownOpcode unknown => simp [Decoding.walk, unknown]
  | @truncated byte rest op known wide short =>
    rw [Decoding.walk]
    simp only [known, wide, if_true]
    split
    · simp only [List.length_cons] at short
      omega
    · rfl

theorem decodeAll_stuck {row : List Instruction} {rest : List UInt8}
    (canonical : ∀ instr ∈ row, instr.Canonical) (stuck : Stuck (rowSize row) rest error) :
    decodeAll (row.flatMap Instruction.encode ++ rest) = .error error := by
  have stops : (Decoding.walk rest (rowSize row) ((locate row 0).reverse ++ [])).error = some error :=
    walk_stuck stuck _
  simp only [decodeAll, Decoding.ofBytes, walk_row canonical, Nat.zero_add, stops]

/-- Bytes are read as some instructions exactly when they are the bytes of
these. -/
theorem decodeAll_eq_ok_iff {bytes : List UInt8} {code : List Located} :
    decodeAll bytes = .ok code ↔
      ∃ row, (∀ instr ∈ row, instr.Canonical) ∧
        bytes = row.flatMap Instruction.encode ∧ code = locate row 0 := by
  constructor
  · intro decoded
    obtain ⟨row, rest, canonical, rfl, rfl | ⟨error, stuck⟩⟩ := exists_row bytes 0
    · rw [List.append_nil] at decoded ⊢
      rw [decodeAll_flatMap_encode canonical] at decoded
      exact ⟨row, canonical, rfl, (Except.ok.inj decoded).symm⟩
    · rw [Nat.zero_add] at stuck
      rw [decodeAll_stuck canonical stuck] at decoded
      cases decoded
  · rintro ⟨row, canonical, rfl, rfl⟩
    exact decodeAll_flatMap_encode canonical

/-- Bytes are not read exactly when reading stops behind some instructions. -/
theorem decodeAll_eq_error_iff {bytes : List UInt8} :
    decodeAll bytes = .error error ↔
      ∃ row rest, (∀ instr ∈ row, instr.Canonical) ∧
        bytes = row.flatMap Instruction.encode ++ rest ∧ Stuck (rowSize row) rest error := by
  constructor
  · intro decoded
    obtain ⟨row, rest, canonical, rfl, rfl | ⟨found, stuck⟩⟩ := exists_row bytes 0
    · rw [List.append_nil, decodeAll_flatMap_encode canonical] at decoded
      cases decoded
    · rw [Nat.zero_add] at stuck
      rw [decodeAll_stuck canonical stuck] at decoded
      cases decoded
      exact ⟨row, rest, canonical, rfl, stuck⟩
  · rintro ⟨row, rest, canonical, rfl, stuck⟩
    exact decodeAll_stuck canonical stuck

end NewtonScript.Bytecode
