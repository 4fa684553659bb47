import BoostRpc.Json.TypedRoundTrip
import BoostRpc.Rounding

/-!
# Integers of 64 bits in JSON values

`json::value` holds a number as a `double`. `value::operator=` converts the integer to the nearest
one and `json::unpack` converts back: what comes back is the integer rounded to 53 significant bits
(`unpack_packed_integer`), and the conversion back is undefined where the rounding leaves the range
of the type. `wide_integers` is the result for both types of 64 bits.
-/

namespace BoostRpc.Json

open Rounding

/-- The conversion of an integer to `double`. -/
def Double.ofInteger (n : Int) : Double := .finite (Format.binary64.nearest n)

/-- `uint64_t` -/
def Integer.uint64 : Integer UInt64 where
  least := 0
  most := 2 ^ 64 - 1
  toInt n := n.toNat
  ofInt n := UInt64.ofNat n.toNat
  inRange n := by have := n.toNat_lt; omega
  ofInt_toInt n := by simp

/-- `int64_t` -/
def Integer.int64 : Integer Int64 where
  least := -(2 ^ 63)
  most := 2 ^ 63 - 1
  toInt := Int64.toInt
  ofInt := Int64.ofInt
  inRange n := ⟨n.le_toInt, by have := n.toInt_lt; omega⟩
  ofInt_toInt := Int64.ofInt_toInt

variable {α : Type}

/-- `value::operator=` with an integer. -/
def Value.ofInteger (i : Integer α) (v : α) : Value := .number (Double.ofInteger (i.toInt v))

/-- `pack( value& jsv, const uint64_t& v )` and `pack( value& jsv, const int64_t& v )`: whatever
`jsv` holds, `jsv = v`. -/
def packInteger (i : Integer α) (_jsv : Value) (v : α) : Value := .ofInteger i v

/-- Different integers of the range are different values of the type. -/
def Integer.Exact (i : Integer α) : Prop :=
  ∀ n, i.least ≤ n → n ≤ i.most → i.toInt (i.ofInt n) = n

theorem exact_uint64 : Integer.uint64.Exact := by
  intro n hleast hmost
  show ((UInt64.ofNat n.toNat).toNat : Int) = n
  have hlt : n.toNat < 2 ^ 64 := by
    have : n ≤ 2 ^ 64 - 1 := hmost
    omega
  have hnonneg : 0 ≤ n := hleast
  rw [UInt64.toNat_ofNat_of_lt' hlt, Int.toNat_of_nonneg hnonneg]

theorem exact_int64 : Integer.int64.Exact := by
  intro n hleast hmost
  have hless : -(2 ^ 63) ≤ n := hleast
  have hmore : n ≤ 2 ^ 63 - 1 := hmost
  exact Int64.toInt_ofInt_of_le hless (by omega)

/-- An integer type whose integers a `double` has. -/
structure Integer.Narrow (i : Integer α) : Prop where
  exact : i.Exact
  least : -(2 ^ 53) ≤ i.least
  most : i.most ≤ 2 ^ 53

theorem Integer.Narrow.small {i : Integer α} (h : i.Narrow) (v : α) : |i.toInt v| ≤ 2 ^ 53 :=
  abs_le.mpr ⟨h.least.trans (i.inRange v).1, (i.inRange v).2.trans h.most⟩

theorem narrow_int32 : Integer.int32.Narrow where
  exact n hleast hmost := by
    have hless : -(2 ^ 31) ≤ n := hleast
    have hmore : n ≤ 2 ^ 31 - 1 := hmost
    exact Int32.toInt_ofInt_of_le hless (by omega)
  least := by decide
  most := by decide

theorem narrow_uint32 : Integer.uint32.Narrow where
  exact n hleast hmost := by
    have hlt : n.toNat < 2 ^ 32 := by
      have : n ≤ 2 ^ 32 - 1 := hmost
      omega
    have hnonneg : 0 ≤ n := hleast
    show ((UInt32.ofNat n.toNat).toNat : Int) = n
    rw [UInt32.toNat_ofNat_of_lt' hlt, Int.toNat_of_nonneg hnonneg]
  least := by decide
  most := by decide

/-- For the types of up to 32 bits this is the codec's `pack`, which does not round. -/
theorem pack_small_integer {i : Integer α} {v : α} (h : |i.toInt v| ≤ 2 ^ 53) (jsv : Value) :
    pack (.integer i) jsv v = .ok (packInteger i jsv v) := by
  have hself := (Format.binary64.represents_int (by decide) h).nearest_self
  show Except.ok (Value.number (.finite (i.toInt v))) = _
  rw [← hself]
  rfl

/-- What comes back is the rounded integer, where the type has it. -/
theorem unpack_packed_integer {i : Integer α} {v : α} {r : Int}
    (hr : Format.binary64.nearest (i.toInt v) = r) (jsv : Value) :
    unpackInteger i (packInteger i jsv v) =
      if i.least ≤ r ∧ r ≤ i.most then .ok (i.ofInt r) else .error .undefined := by
  show i.ofDouble (.finite (Format.binary64.nearest (i.toInt v))) = _
  rw [hr, Integer.of_double_finite, truncate_int]

/-- An integer is rounded to an integer. -/
theorem nearest_integer (n : Int) : ∃ r : Int, Format.binary64.nearest n = r :=
  Format.binary64.nearest_int (by decide) n

/-- The integer itself comes back exactly where the format has it. -/
theorem integer_back_iff {i : Integer α} (hexact : i.Exact) (jsv : Value) (v : α) :
    unpackInteger i (packInteger i jsv v) = .ok v ↔
      Format.binary64.Represents (i.toInt v) := by
  obtain ⟨r, hr⟩ := nearest_integer (i.toInt v)
  rw [unpack_packed_integer hr jsv, ← Format.nearest_eq_self_iff, hr]
  constructor
  · intro h
    split_ifs at h with hrange
    have hv : i.ofInt r = v := Except.ok.inj h
    rw [← hv, hexact r hrange.1 hrange.2]
  · intro h
    have hsame : r = i.toInt v := by exact_mod_cast h
    rw [hsame, if_pos (i.inRange v), i.ofInt_toInt]

/-- Rounding does not leave the range at its lower end, where the format has that end. -/
theorem least_le_rounded {i : Integer α} (h : Format.binary64.Represents i.least) {v : α} {r : Int}
    (hr : Format.binary64.nearest (i.toInt v) = r) : i.least ≤ r := by
  have hle : (i.least : ℚ) ≤ r := by
    rw [← hr]
    exact Format.binary64.le_nearest h (by exact_mod_cast (i.inRange v).1)
  exact_mod_cast hle

/-- What comes back, and when it is the integer itself. -/
theorem integer_back {i : Integer α} (hexact : i.Exact)
    (hleast : Format.binary64.Represents i.least) (jsv : Value) (v : α) :
    (unpackInteger i (packInteger i jsv v) = .ok v ↔
      ∃ (m : Int) (k : Nat), |m| < 2 ^ 53 ∧ i.toInt v = m * 2 ^ k) ∧
    ∃ r : Int, Format.binary64.nearest (i.toInt v) = r ∧
      unpackInteger i (packInteger i jsv v) =
        if r ≤ i.most then .ok (i.ofInt r) else .error .undefined := by
  constructor
  · rw [integer_back_iff hexact, Format.binary64.represents_int_iff (by decide)]
    rfl
  · obtain ⟨r, hr⟩ := nearest_integer (i.toInt v)
    refine ⟨r, hr, (unpack_packed_integer hr jsv).trans ?_⟩
    simp only [least_le_rounded hleast hr, true_and]

/-- An integer of 64 bits comes back exactly where it has at most 53 significant bits. Otherwise
the nearest one that has comes back, and nothing is defined where that is out of range. -/
theorem wide_integers (jsv : Value) :
    (∀ n : UInt64,
      (unpackInteger .uint64 (packInteger .uint64 jsv n) = .ok n ↔
        ∃ (m : Int) (k : Nat), |m| < 2 ^ 53 ∧ (n.toNat : Int) = m * 2 ^ k) ∧
      ∃ r : Int, Format.binary64.nearest n.toNat = r ∧
        unpackInteger .uint64 (packInteger .uint64 jsv n) =
          if r ≤ 2 ^ 64 - 1 then .ok (UInt64.ofNat r.toNat) else .error .undefined) ∧
    (∀ n : Int64,
      (unpackInteger .int64 (packInteger .int64 jsv n) = .ok n ↔
        ∃ (m : Int) (k : Nat), |m| < 2 ^ 53 ∧ n.toInt = m * 2 ^ k) ∧
      ∃ r : Int, Format.binary64.nearest n.toInt = r ∧
        unpackInteger .int64 (packInteger .int64 jsv n) =
          if r ≤ 2 ^ 63 - 1 then .ok (Int64.ofInt r) else .error .undefined) := by
  have least_uint64 : Format.binary64.Represents Integer.uint64.least :=
    ⟨0, 0, by decide, by decide, by simp [Integer.uint64]⟩
  have least_int64 : Format.binary64.Represents Integer.int64.least :=
    ⟨-1, 63, by decide, by decide, by norm_num [Integer.int64]⟩
  refine ⟨fun n => ?_, fun n => integer_back exact_int64 least_int64 jsv n⟩
  have hback := integer_back exact_uint64 least_uint64 jsv n
  have htoInt : Integer.uint64.toInt n = (n.toNat : Int) := rfl
  rw [htoInt] at hback
  exact_mod_cast hback

/-- `2 ^ 53 + 1` comes back as `2 ^ 53`, and the greatest integers of both types do not come back
at all. -/
theorem wide_integers_rounded :
    unpackInteger .uint64 (packInteger .uint64 .null 9007199254740993) = .ok 9007199254740992 ∧
      unpackInteger .int64 (packInteger .int64 .null 9007199254740993) = .ok 9007199254740992 ∧
      unpackInteger .uint64 (packInteger .uint64 .null 18446744073709551615) = .error .undefined ∧
      unpackInteger .int64 (packInteger .int64 .null 9223372036854775807) = .error .undefined := by
  have between : Format.binary64.nearest 9007199254740993 = 9007199254740992 := by decide +kernel
  have most_unsigned : Format.binary64.nearest 18446744073709551615 = 18446744073709551616 := by
    decide +kernel
  have most_signed : Format.binary64.nearest 9223372036854775807 = 9223372036854775808 := by
    decide +kernel
  refine ⟨?_, ?_, ?_, ?_⟩
  · exact unpack_packed_integer (i := .uint64) (r := 9007199254740992) (by exact_mod_cast between) _
  · exact unpack_packed_integer (i := .int64) (r := 9007199254740992) (by exact_mod_cast between) _
  · exact unpack_packed_integer (i := .uint64) (r := 18446744073709551616)
      (by exact_mod_cast most_unsigned) _
  · exact unpack_packed_integer (i := .int64) (r := 9223372036854775808)
      (by exact_mod_cast most_signed) _

end BoostRpc.Json
