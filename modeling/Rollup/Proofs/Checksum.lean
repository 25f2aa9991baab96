import Rollup.Checksum

/-!
# CRC-32 — one changed byte changes the checksum

Shifting a bit out of the register can be undone: the polynomial has its highest bit set, and
nothing else can set that of the register, so it tells whether a one was shifted out
(`bitStep_inj`).  So two registers that differ go on to differ over the same bytes, and two strings
that differ in one byte have different checksums (`checksum_set_ne`).
-/

namespace Rollup.Crc32

theorem and_one_eq_one_iff (register : UInt32) :
    register &&& 1 = 1 ↔ register.toNat % 2 = 1 := by
  rw [← UInt32.toNat_inj, UInt32.toNat_and]
  exact iff_of_eq (congrArg (· = 1) (Nat.and_one_is_mod _))

theorem toNat_shiftRight_one (register : UInt32) :
    (register >>> 1).toNat = register.toNat / 2 := by
  rw [UInt32.toNat_shiftRight]
  exact Nat.shiftRight_eq_div_pow _ 1

/-- What was shifted out of two registers is told by their last bits. -/
theorem eq_of_shiftRight_one {a b : UInt32} (hshift : a >>> 1 = b >>> 1)
    (hlast : a.toNat % 2 = b.toNat % 2) : a = b := by
  have hhalf := congrArg UInt32.toNat hshift
  rw [toNat_shiftRight_one, toNat_shiftRight_one] at hhalf
  exact UInt32.toNat_inj.1 (by omega)

/-- The highest bit of the polynomial is set. -/
theorem xor_polynomial_ne (a b : UInt32) : (a >>> 1) ^^^ (0xEDB88320 : UInt32) ≠ b >>> 1 := by
  intro h
  have hpolynomial : (a >>> 1) ^^^ (b >>> 1) = 0xEDB88320 := by
    rw [← h, ← UInt32.xor_assoc, UInt32.xor_self, UInt32.zero_xor]
  have hlow : ∀ register : UInt32, (register >>> 1).toNat < 2 ^ 31 := fun register => by
    rw [toNat_shiftRight_one]
    have := register.toNat_lt
    omega
  have hlt := Nat.xor_lt_two_pow (hlow a) (hlow b)
  rw [← UInt32.toNat_xor, hpolynomial] at hlt
  exact absurd hlt (by decide)

/-- **A shifted register** tells the register. -/
theorem bitStep_inj {a b : UInt32} (h : bitStep a = bitStep b) : a = b := by
  simp only [bitStep, and_one_eq_one_iff] at h
  split at h <;> split at h
  · next ha hb =>
    exact eq_of_shiftRight_one ((UInt32.xor_left_inj _).1 h) (ha.trans hb.symm)
  · exact absurd h (xor_polynomial_ne a b)
  · exact absurd h.symm (xor_polynomial_ne b a)
  · next ha hb => exact eq_of_shiftRight_one h (by omega)

theorem bitSteps_inj {n : Nat} {a b : UInt32} (h : bitSteps n a = bitSteps n b) : a = b := by
  induction n generalizing a b with
  | zero => exact h
  | succ n ih => exact bitStep_inj (ih h)

theorem byteStep_inj {a b : UInt32} {byte : UInt8} (h : byteStep a byte = byteStep b byte) :
    a = b := (UInt32.xor_left_inj _).1 (bitSteps_inj h)

/-- A byte that was taken in is told by the register. -/
theorem byte_of_byteStep {register : UInt32} {byte byte' : UInt8}
    (h : byteStep register byte = byteStep register byte') : byte = byte' := by
  have hbyte := congrArg UInt32.toNat ((UInt32.xor_right_inj _).1 (bitSteps_inj h))
  rw [UInt8.toNat_toUInt32, UInt8.toNat_toUInt32] at hbyte
  exact UInt8.toNat_inj.1 hbyte

theorem foldl_byteStep_inj {bytes : Bytes} {a b : UInt32}
    (h : bytes.foldl byteStep a = bytes.foldl byteStep b) : a = b := by
  induction bytes generalizing a b with
  | nil => exact h
  | cons byte bytes ih => exact byteStep_inj (ih h)

/-- **One changed byte** changes the checksum. -/
theorem checksum_set_ne {bytes : Bytes} {i : Nat} (hi : i < bytes.length) {byte : UInt8}
    (hne : byte ≠ bytes[i]) : checksum (bytes.set i byte) ≠ checksum bytes := by
  intro h
  have hsplit : bytes.set i bytes[i] = bytes := List.set_getElem_self hi
  have hfold : (bytes.set i byte).foldl byteStep 0xFFFFFFFF =
      (bytes.set i bytes[i]).foldl byteStep 0xFFFFFFFF := by
    rw [hsplit]
    exact (UInt32.xor_left_inj _).1 h
  rw [List.set_eq_take_append_cons_drop, List.set_eq_take_append_cons_drop, if_pos hi, if_pos hi,
    List.foldl_append, List.foldl_append, List.foldl_cons, List.foldl_cons] at hfold
  exact hne (byte_of_byteStep (foldl_byteStep_inj hfold))

end Rollup.Crc32
