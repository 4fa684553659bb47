import BoostRpc.Raw.Varint

/-!
# Signed integers

`pack` of a `signed_int` writes twice the number, or the flipped bits of twice the number where it
is negative. `unpack` halves what it reads and mixes in the top bit, which is a bit of the number:
`unzigzag_zigzag_iff` says for which numbers that makes no difference, and
`signed_round_trip_iff` what follows for the bytes.
-/

namespace BoostRpc.Raw

open Base128

/-- What `pack` of a `signed_int` passes to its loop. -/
abbrev zigzag (n : Int32) : UInt32 := ((n <<< 1) ^^^ (n >>> 31)).toUInt32

/-! ## The bits of a number -/

section

variable {x y : BitVec 32}

theorem zigzag_positive (h : x.toNat < 2 ^ 31) : x <<< 1 ^^^ x.sshiftRight 31 = x <<< 1 := by
  have hmsb : x.msb = false := by
    rw [BitVec.msb_eq_decide, decide_eq_false_iff_not]
    exact Nat.not_le.mpr h
  have hsign : x >>> 31 = 0#32 := by bv_omega
  rw [BitVec.sshiftRight_eq_of_msb_false hmsb, hsign, BitVec.xor_zero]

theorem zigzag_negative (h : 2 ^ 31 ≤ x.toNat) :
    x <<< 1 ^^^ x.sshiftRight 31 = ~~~(x <<< 1) := by
  have hmsb : x.msb = true := by
    rw [BitVec.msb_eq_decide, decide_eq_true_iff]
    exact h
  have hsign : ~~~x >>> 31 = 0#32 := by bv_omega
  rw [BitVec.sshiftRight_eq_of_msb_true hmsb, hsign, BitVec.not_zero, BitVec.xor_allOnes]

/-- The lowest bit is the remainder by two. -/
theorem low_bit (x : BitVec 32) : (x &&& 1#32).toNat = x.toNat % 2 := by
  rw [BitVec.toNat_and]
  exact Nat.and_one_is_mod x.toNat

/-- Only zero can be mixed in without a change. -/
theorem xor_eq_self (x y : BitVec 32) : x ^^^ y = x ↔ y = 0#32 := by
  constructor
  · intro h
    have hcancel : x ^^^ (x ^^^ y) = x ^^^ x := congrArg (x ^^^ ·) h
    rwa [← BitVec.xor_assoc, BitVec.xor_self, BitVec.zero_xor] at hcancel
  · intro h
    rw [h, BitVec.xor_zero]

end

/-- The bits that `unpack` makes of an even number. -/
theorem unzigzag_even {v : UInt32} (h : v.toBitVec.toNat % 2 = 0) :
    (unzigzag v).toBitVec = v.toBitVec >>> 1 ^^^ v.toBitVec >>> 31 := by
  have hbit : v.toBitVec &&& 1#32 = 0#32 := BitVec.eq_of_toNat_eq ((low_bit _).trans h)
  have hzero : v &&& 1 = 0 := UInt32.toBitVec_inj.mp hbit
  have hvalue : unzigzag v = - -(((v >>> 1) ^^^ (v >>> 31)) + (v &&& 1)).toInt32 := by
    rw [unzigzag, if_neg (not_not.mpr hzero)]
  rw [hvalue, Int32.neg_neg, hzero, UInt32.add_zero]
  rfl

/-- The bits that `unpack` makes of an odd number. -/
theorem unzigzag_odd {v : UInt32} (h : v.toBitVec.toNat % 2 = 1) :
    (unzigzag v).toBitVec = -((v.toBitVec >>> 1 ^^^ v.toBitVec >>> 31) + 1#32) := by
  have hbit : v.toBitVec &&& 1#32 = 1#32 := BitVec.eq_of_toNat_eq ((low_bit _).trans h)
  have hone : v &&& 1 = 1 := UInt32.toBitVec_inj.mp hbit
  have hvalue : unzigzag v = -(((v >>> 1) ^^^ (v >>> 31)) + (v &&& 1)).toInt32 := by
    rw [unzigzag, if_pos (by rw [hone]; decide)]
  rw [hvalue, hone]
  rfl

/-- The decoder undoes zigzag exactly where the top bit of what it reads is clear. -/
theorem unzigzag_zigzag_iff (n : Int32) :
    unzigzag (zigzag n) = n ↔ -(2 ^ 30) ≤ n.toInt ∧ n.toInt < 2 ^ 30 := by
  have hbits : (zigzag n).toBitVec = n.toBitVec <<< 1 ^^^ n.toBitVec.sshiftRight 31 := rfl
  have hint : n.toInt = n.toBitVec.toInt := rfl
  rw [← Int32.toBitVec_inj, hint, BitVec.toInt_eq_toNat_cond]
  generalize n.toBitVec = x at hbits ⊢
  by_cases hx : x.toNat < 2 ^ 31
  · rw [zigzag_positive hx] at hbits
    have heven : (zigzag n).toBitVec.toNat % 2 = 0 := by
      rw [hbits]
      bv_omega
    have hhalf : (x <<< 1) >>> 1 = x := by bv_omega
    rw [unzigzag_even heven, hbits, hhalf, xor_eq_self, if_pos (by omega)]
    bv_omega
  · rw [zigzag_negative (Nat.not_lt.mp hx)] at hbits
    have hodd : (zigzag n).toBitVec.toNat % 2 = 1 := by
      rw [hbits]
      bv_omega
    have hhalf : ~~~(x <<< 1) >>> 1 = ~~~x := by bv_omega
    have hneg : ∀ y, -(y + 1#32) = x ↔ y = ~~~x := by
      intro y
      bv_omega
    rw [unzigzag_odd hodd, hbits, hhalf, hneg, xor_eq_self, if_neg (by omega)]
    bv_omega

/-! ## The round trip -/

/-- Unpacking what was packed gives the number back for the numbers of 31 bits, and consumes what
was packed for all. -/
theorem signed_round_trip_iff [Machine] (n : Int32) (r : Text) :
    unpackSigned (.new (packSigned [] n ++ r)) =
        .ok (n, ⟨packSigned [] n ++ r, (packSigned ([] : Text) n).length⟩) ↔
      -(2 ^ 30) ≤ n.toInt ∧ n.toInt < 2 ^ 30 := by
  have hbytes : packSigned ([] : Text) n = code (zigzag n).toNat := put_groups_text [] _
  have hread := reads_signed n (.new (code (zigzag n).toNat ++ r)) r (Datastream.rest_new _)
  rw [← unzigzag_zigzag_iff n, hbytes, hread, Datastream.skip, Datastream.new, Nat.zero_add]
  constructor
  · intro h
    exact (Prod.mk.inj (Except.ok.inj h)).1
  · intro h
    rw [h]

/-- The number 2^30 comes back as another one. -/
theorem signed_round_trip_large :
    letI := Machine.x86
    packSigned ([] : Text) (2 ^ 30) = [128, 128, 128, 128, 8] ∧
      unpackSigned (.new [128, 128, 128, 128, 8]) =
        .ok (2 ^ 30 + 1, ⟨[128, 128, 128, 128, 8], 5⟩) ∧
      (2 ^ 30 + 1 : Int32) ≠ 2 ^ 30 := by
  let _ := Machine.x86
  have hbits : (zigzag (2 ^ 30)).toNat = 2 ^ 31 := rfl
  have hbytes : packSigned ([] : Text) (2 ^ 30) = [128, 128, 128, 128, 8] := by
    rw [packSigned, put_groups_text, hbits]
    simp [code_small, code_large]
  exact ⟨hbytes, rfl, by decide⟩

end BoostRpc.Raw
