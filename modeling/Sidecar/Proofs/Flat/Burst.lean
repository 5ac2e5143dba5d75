import Sidecar.Binary.Checksum

/-!
# The checksum sees every short burst

A shift of the register loses nothing: what falls out at the low end comes back at the top, because
the polynomial has its top bit. It is also linear in exclusive or. Both carry over to any number of
bytes, and two facts follow. Up to four bytes enter the register as one number (`run_eq_shifts`), so
that bytes which differ only in a window of this length leave different registers (`burst_seen`). And
bytes that are followed by their own checksum always leave the same register (`run_crc32`), whatever
they are.
-/

set_option autoImplicit false

namespace Sidecar

namespace Checksum

variable {a b : UInt32}

/-! ## One shift -/

theorem low_bit_iff (register : UInt32) :
    register &&& 1 = 1 ↔ register.toBitVec.getLsbD 0 = true := by
  rw [← UInt32.toBitVec_inj, UInt32.toBitVec_and]
  have hone : (1 : UInt32).toBitVec = 1#32 := rfl
  rw [hone, BitVec.and_one_eq_setWidth_ofBool_getLsbD]
  cases register.toBitVec.getLsbD 0 <;> decide

/-- What a shift puts at a place: the next bit, and the polynomial's if a bit has fallen out. -/
theorem getLsbD_shift (register : UInt32) (i : Nat) :
    (shift register).toBitVec.getLsbD i = (register.toBitVec.getLsbD (i + 1)
      ^^ (register.toBitVec.getLsbD 0 && polynomial.toBitVec.getLsbD i)) := by
  unfold shift
  cases hlow : register.toBitVec.getLsbD 0 with
  | false =>
    rw [if_neg (by rw [low_bit_iff, hlow]; decide)]
    simp [Nat.add_comm]
  | true =>
    rw [if_pos ((low_bit_iff register).mpr hlow)]
    simp [Nat.add_comm]

theorem shift_injective (h : shift a = shift b) : a = b := by
  have hbit : ∀ i, (shift a).toBitVec.getLsbD i = (shift b).toBitVec.getLsbD i := fun i => by rw [h]
  simp only [getLsbD_shift] at hbit
  -- The polynomial has the top bit, so the top of the result is the bit that fell out.
  have hlow : a.toBitVec.getLsbD 0 = b.toBitVec.getLsbD 0 := by
    have htop : polynomial.toBitVec.getLsbD 31 = true := by decide
    have hout : ∀ x : UInt32, x.toBitVec.getLsbD (31 + 1) = false := fun x =>
      BitVec.getLsbD_of_ge _ _ (Nat.le_refl 32)
    have hbit31 := hbit 31
    rwa [hout, hout, htop, Bool.and_true, Bool.and_true, Bool.false_xor, Bool.false_xor] at hbit31
  apply UInt32.toBitVec_inj.mp
  apply BitVec.eq_of_getLsbD_eq
  intro i _
  cases i with
  | zero => exact hlow
  | succ i =>
    have hbiti := hbit i
    rw [hlow] at hbiti
    exact Bool.xor_left_inj.mp hbiti

theorem shift_xor (a b : UInt32) : shift (a ^^^ b) = shift a ^^^ shift b := by
  apply UInt32.toBitVec_inj.mp
  apply BitVec.eq_of_getLsbD_eq
  intro i _
  rw [UInt32.toBitVec_xor, BitVec.getLsbD_xor, getLsbD_shift, getLsbD_shift, getLsbD_shift,
    UInt32.toBitVec_xor, BitVec.getLsbD_xor, BitVec.getLsbD_xor, Bool.and_xor_distrib_right]
  simp only [Bool.xor_assoc, Bool.xor_left_comm]

theorem shift_double {m : Nat} (h : 2 * m < UInt32.size) :
    shift (UInt32.ofNat (2 * m)) = UInt32.ofNat m := by
  have heven : UInt32.ofNat (2 * m) &&& 1 ≠ 1 := by
    rw [ne_eq, ← UInt32.toNat_inj, UInt32.toNat_and, UInt32.toNat_ofNat_of_lt' h]
    simp
  rw [shift, if_neg heven]
  apply UInt32.toNat_inj.mp
  rw [UInt32.toNat_shiftRight, UInt32.toNat_ofNat_of_lt' h, UInt32.toNat_ofNat_of_lt' (by omega)]
  simp [Nat.shiftRight_eq_div_pow]

/-! ## Shifts and bytes in a row -/

theorem shifts_injective (n : Nat) (h : shifts n a = shifts n b) : a = b := by
  induction n generalizing a b with
  | zero => exact h
  | succ n ih => exact shift_injective (ih h)

theorem shifts_xor (n : Nat) (a b : UInt32) : shifts n (a ^^^ b) = shifts n a ^^^ shifts n b := by
  induction n generalizing a b with
  | zero => rfl
  | succ n ih => rw [shifts, shift_xor, ih, shifts, shifts]

theorem shifts_add (m n : Nat) (register : UInt32) :
    shifts (m + n) register = shifts n (shifts m register) := by
  induction m generalizing register with
  | zero => rw [Nat.zero_add, shifts]
  | succ m ih => rw [Nat.succ_add, shifts, ih, shifts]

theorem shifts_octet {m : Nat} (h : 256 * m < UInt32.size) :
    shifts 8 (UInt32.ofNat (256 * m)) = UInt32.ofNat m := by
  have hsteps : 256 * m = 2 * (2 * (2 * (2 * (2 * (2 * (2 * (2 * m))))))) := by omega
  rw [hsteps] at h ⊢
  simp only [shifts]
  repeat rw [shift_double (by omega)]

theorem absorb_injective {byte : UInt8} (h : absorb a byte = absorb b byte) : a = b :=
  (UInt32.xor_left_inj _).mp (shifts_injective 8 h)

/-- The same bytes take different registers to different registers. -/
theorem run_injective (bytes : Bytes) (h : run a bytes = run b bytes) : a = b := by
  induction bytes generalizing a b with
  | nil => exact h
  | cons byte rest ih => exact absorb_injective (ih h)

theorem run_append (register : UInt32) (front back : Bytes) :
    run register (front ++ back) = run (run register front) back :=
  List.foldl_append

/-! ## Four bytes at once -/

/-- A byte does not overlap what stands above it. -/
theorem octet_xor {byte m : Nat} (h : byte < 256) : byte + 256 * m = byte ^^^ (256 * m) := by
  apply Nat.eq_of_testBit_eq
  intro i
  have hsum := Nat.testBit_two_pow_mul_add m (i := 8) h i
  have hhigh := Nat.testBit_two_pow_mul (i := 8) (a := m) (j := i)
  simp only [Nat.reducePow] at hsum hhigh
  rw [Nat.testBit_xor, hhigh, Nat.add_comm, hsum]
  by_cases hi : i < 8
  · simp [hi, Nat.not_le.mpr hi]
  · have hlow : byte.testBit i = false := Nat.testBit_lt_two_pow
      (Nat.lt_of_lt_of_le h (Nat.pow_le_pow_right Nat.zero_lt_two (Nat.not_lt.mp hi)))
    simp [hi, hlow, Nat.not_lt.mp hi]

theorem ofNat_octet (byte : UInt8) {m : Nat} (h : 255 + 256 * m < UInt32.size) :
    UInt32.ofNat (byte.toNat + 256 * m) = byte.toUInt32 ^^^ UInt32.ofNat (256 * m) := by
  have hbyte : byte.toNat < 256 := byte.toNat_lt
  apply UInt32.toNat_inj.mp
  rw [UInt32.toNat_xor, UInt8.toNat_toUInt32, UInt32.toNat_ofNat_of_lt' (by omega),
    UInt32.toNat_ofNat_of_lt' (by omega), octet_xor hbyte]

theorem decode_lt_size {window : Bytes} (h : window.length ≤ 4) :
    Word.decode window < UInt32.size :=
  Nat.lt_of_lt_of_le (Word.decode_lt window) (Nat.pow_le_pow_right (by decide) h)

/-- Up to four bytes enter as one number. -/
theorem run_eq_shifts (register : UInt32) {window : Bytes} (h : window.length ≤ 4) :
    run register window
      = shifts (8 * window.length) (register ^^^ UInt32.ofNat (Word.decode window)) := by
  induction window generalizing register with
  | nil => simp [run, shifts, Word.decode]
  | cons byte rest ih =>
    rw [List.length_cons] at h
    have hsmall : 255 + 256 * Word.decode rest < UInt32.size :=
      decode_lt_size (show (255 :: rest).length ≤ 4 from h)
    have hlength : 8 * (byte :: rest).length = 8 + 8 * rest.length := by
      rw [List.length_cons]
      omega
    -- The rest stands eight places above the first byte, whose shifts bring it down to its own place.
    calc run register (byte :: rest) = run (absorb register byte) rest := rfl
      _ = shifts (8 * rest.length)
          (absorb register byte ^^^ UInt32.ofNat (Word.decode rest)) := ih _ (by omega)
      _ = shifts (8 * rest.length) (shifts 8 (register ^^^ byte.toUInt32
          ^^^ UInt32.ofNat (256 * Word.decode rest))) := by
        rw [shifts_xor 8, shifts_octet (by omega), absorb]
      _ = shifts (8 * (byte :: rest).length)
          (register ^^^ UInt32.ofNat (Word.decode (byte :: rest))) := by
        rw [hlength, shifts_add, Word.decode, ofNat_octet byte hsmall, UInt32.xor_assoc]

/-- Two windows of one length that leave the same register are the same. -/
theorem window_injective {register : UInt32} {window window' : Bytes}
    (hlength : window'.length = window.length) (h : window.length ≤ 4)
    (hrun : run register window' = run register window) : window' = window := by
  rw [run_eq_shifts register h, run_eq_shifts register (hlength ▸ h), hlength] at hrun
  have hofNat := (UInt32.xor_right_inj _).mp (shifts_injective _ hrun)
  have hdecode : Word.decode window' = Word.decode window := by
    rw [← UInt32.toNat_ofNat_of_lt' (decode_lt_size h), ← hofNat,
      UInt32.toNat_ofNat_of_lt' (decode_lt_size (hlength ▸ h))]
  rw [← Word.encode_decode window', ← Word.encode_decode window, hlength, hdecode]

/-- **Bytes that differ in one window of up to four bytes leave different registers.** -/
theorem burst_seen {register : UInt32} {before window window' after : Bytes}
    (hlength : window'.length = window.length) (h : window.length ≤ 4)
    (hrun : run register (before ++ window' ++ after) = run register (before ++ window ++ after)) :
    window' = window := by
  rw [run_append, run_append, run_append, run_append] at hrun
  exact window_injective hlength h (run_injective after hrun)

/-! ## The residue -/

/-- The register after bytes and their own checksum. -/
def residue : UInt32 := shifts 32 0xFFFFFFFF

/-- What a checksum leaves does not depend on what it is the checksum of. -/
theorem run_crc32 (content : Bytes) :
    run 0xFFFFFFFF (content ++ Word.encode 4 (crc32 content).toNat) = residue := by
  have hlength : (Word.encode 4 (crc32 content).toNat).length = 4 := Word.length_encode 4 _
  have hdecode : Word.decode (Word.encode 4 (crc32 content).toNat) = (crc32 content).toNat := by
    rw [Word.decode_encode]
    exact Nat.mod_eq_of_lt (crc32 content).toNat_lt
  rw [run_append, run_eq_shifts _ (Nat.le_of_eq hlength), hlength, hdecode, UInt32.ofNat_toNat,
    crc32, ← UInt32.xor_assoc, UInt32.xor_self, UInt32.zero_xor, residue]

end Checksum

end Sidecar
