import BoostRpc.Base128
import BoostRpc.Raw.Datastream

/-!
# Variable-length integers

`raw::pack` and `raw::unpack` of `unsigned_int` and `signed_int`. The loops of the two packers
agree, and so do those of the two unpackers up to the type of their shift counters. The unpackers
ignore the result of `get` and look at the byte they obtained last, so that a loop can run on past
the end of the buffer; `get_groups_fuel` shows that the bound on the iterations of `getGroups` cuts
only the runs that never end. `reads_unsigned` is the round trip.
-/

namespace BoostRpc.Raw

open Base128

/-- What the source leaves to the machine. -/
class Machine where
  /-- The byte that an uninitialised variable holds. -/
  junk : Byte
  /-- What `x << n` gives for an `n` of 32 or more. -/
  overshift : UInt32 → Nat → UInt32

/-- A machine with zeroed memory that takes the shift counts of 32 bits modulo 32. -/
@[reducible] def Machine.x86 : Machine where
  junk := 0
  overshift x n := x <<< UInt32.ofNat n

/-- `x << n` for an `x` of 32 bits. -/
def shiftLeft [Machine] (x : UInt32) (n : Nat) : UInt32 :=
  if n < 32 then x <<< UInt32.ofNat n else Machine.overshift x n

/-- The loop of `pack` for both types of integers. -/
def putGroups {σ : Type} [OutStream σ] (s : σ) (val : Nat) : σ :=
  let b := UInt8.ofNat val &&& 0x7f
  let b := b ||| (if 0 < val >>> 7 then 0x80 else 0)
  if 0 < val >>> 7 then putGroups (OutStream.put s b) (val >>> 7) else OutStream.put s b
termination_by val
decreasing_by simp only [Nat.shiftRight_eq_div_pow] at *; omega

/-- `raw::pack` of an `unsigned_int`. -/
def packUnsigned {σ : Type} [OutStream σ] (s : σ) (v : UInt32) : σ := putGroups s v.toNat

/-- `raw::pack` of a `signed_int`. -/
def packSigned {σ : Type} [OutStream σ] (s : σ) (v : Int32) : σ :=
  putGroups s ((v <<< 1) ^^^ (v >>> 31)).toUInt32.toNat

/-- The loop of `unpack` for both types of integers, with at most `fuel` iterations: `v` is what
has been read, `b` the last byte and `count` the wrap-around of the shift counter. -/
def getGroups [Machine] (count : Nat → Nat) :
    Nat → Datastream → Nat → Byte → Nat → Except Fault (Nat × Datastream)
  | 0, _, _, _, _ => .error .endless
  | fuel + 1, s, v, b, shift =>
      let (_, b, s) := s.get b
      let v := v ||| (shiftLeft (b &&& 0x7f).toUInt32 shift).toNat
      if b &&& 0x80 = 0 then .ok (v, s) else getGroups count fuel s v b (count (shift + 7))

/-- The loop from its start. -/
def readGroups [Machine] (count : Nat → Nat) : Reader Nat :=
  fun s => getGroups count (s.rest.length + 1) s 0 0 0

/-- `raw::unpack` of an `unsigned_int`, whose shift counter is a `uint8_t`. -/
def unpackUnsigned [Machine] : Reader UInt32 := do
  let v ← readGroups (· % 256)
  return UInt32.ofNat v

/-- The value that `unpack` of a `signed_int` makes of the unsigned one. -/
def unzigzag (v : UInt32) : Int32 :=
  let value := (((v >>> 1) ^^^ (v >>> 31)) + (v &&& 1)).toInt32
  let value := if v &&& 1 ≠ 0 then value else -value
  let value := -value
  value

/-- `raw::unpack` of a `signed_int`, whose shift counter is an `int`. -/
def unpackSigned [Machine] : Reader Int32 := do
  let v ← readGroups id
  return unzigzag (UInt32.ofNat v)

/-! ## Packing -/

theorem low_bits (n : Nat) : UInt8.ofNat n &&& 0x7f = UInt8.ofNat (n % 128) := by
  apply UInt8.toNat_inj.mp
  rw [UInt8.toNat_and, to_nat_of_nat (show n % 128 < 256 by omega), UInt8.toNat_ofNat']
  show n % 256 &&& 2 ^ 7 - 1 = n % 128
  rw [Nat.and_two_pow_sub_one_eq_mod]
  omega

theorem set_top_bit {n : Nat} (h : n < 128) :
    UInt8.ofNat n ||| 0x80 = UInt8.ofNat (n + 128) := by
  apply UInt8.toNat_inj.mp
  rw [UInt8.toNat_or, to_nat_of_nat (show n < 256 by omega),
    to_nat_of_nat (show n + 128 < 256 by omega)]
  exact or_shift 1 (show n < 2 ^ 7 from h)

/-- The loop puts the shortest sequence of groups. -/
theorem put_groups_eq_foldl {σ : Type} [OutStream σ] (s : σ) (val : Nat) :
    putGroups s val = (code val).foldl OutStream.put s := by
  induction val using groups_induction generalizing s with
  | small n h =>
      have hrest : n >>> 7 = 0 := by rw [Nat.shiftRight_eq_div_pow]; omega
      rw [putGroups, hrest, code_small h, low_bits, Nat.mod_eq_of_lt h]
      simp
  | large n h ih =>
      have hrest : n >>> 7 = n / 128 := Nat.shiftRight_eq_div_pow n 7
      have hpos : 0 < n / 128 := by omega
      rw [putGroups, hrest, code_large h, low_bits]
      simp only [if_pos hpos, set_top_bit (show n % 128 < 128 by omega), ih, List.foldl_cons]

/-- Putting bytes one after the other appends them. -/
theorem put_all_text (s cs : Text) : cs.foldl OutStream.put s = s ++ cs := by
  induction cs generalizing s with
  | nil => exact (List.append_nil s).symm
  | cons c cs ih => rw [List.foldl_cons, ih, put_text, List.append_assoc, List.singleton_append]

theorem put_groups_text (s : Text) (val : Nat) : putGroups s val = s ++ code val := by
  rw [put_groups_eq_foldl, put_all_text]

theorem pack_unsigned_text (s : Text) (v : UInt32) : packUnsigned s v = s ++ code v.toNat :=
  put_groups_text s v.toNat

/-! ## Unpacking -/

theorem top_bit_clear (b : Byte) : b &&& 0x80 = 0 ↔ b.toNat < 128 := by
  revert b
  exact forall_byte (by decide +kernel)

theorem group_bits (b : Byte) : (b &&& 0x7f).toUInt32.toNat = b.toNat % 128 := by
  show (b &&& 0x7f).toNat = b.toNat % 128
  rw [UInt8.toNat_and]
  exact Nat.and_two_pow_sub_one_eq_mod b.toNat 7

variable [Machine]

theorem shift_left_small {x : UInt32} {n : Nat} (hn : n < 32) (h : x.toNat * 2 ^ n < 2 ^ 32) :
    (shiftLeft x n).toNat = x.toNat <<< n := by
  have hmod : (UInt32.ofNat n).toNat % 32 = n := by
    rw [UInt32.toNat_ofNat_of_lt' (show n < 2 ^ 32 by omega), Nat.mod_eq_of_lt hn]
  rw [shiftLeft, if_pos hn, UInt32.toNat_shiftLeft, hmod, Nat.shiftLeft_eq, Nat.mod_eq_of_lt h]

/-- One iteration on a byte of the buffer. -/
theorem get_groups_step {s : Datastream} {c : Byte} {r : Text} (count : Nat → Nat) (fuel v : Nat)
    (b : Byte) (shift : Nat) (h : s.rest = c :: r) :
    getGroups count (fuel + 1) s v b shift =
      if c.toNat < 128 then
        .ok (v ||| (shiftLeft (c &&& 0x7f).toUInt32 shift).toNat, s.skip 1)
      else getGroups count fuel (s.skip 1) (v ||| (shiftLeft (c &&& 0x7f).toUInt32 shift).toNat) c
        (count (shift + 7)) := by
  simp only [getGroups, Datastream.get_rest h, top_bit_clear]

/-- Past the end a byte with a set top bit is never replaced. -/
theorem get_groups_end {s : Datastream} {b : Byte} (hb : 128 ≤ b.toNat) (h : s.rest = [])
    (count : Nat → Nat) (fuel v shift : Nat) :
    getGroups count fuel s v b shift = .error .endless := by
  induction fuel generalizing s v shift with
  | zero => rfl
  | succ fuel ih =>
      have hrest : (s.skip 1).rest = [] := by rw [Datastream.rest_skip, h, List.drop_nil]
      have htop : ¬ b &&& 0x80 = 0 := by rw [top_bit_clear]; omega
      simp only [getGroups, Datastream.get_end h, if_neg htop]
      exact ih hrest _ _

/-- More iterations than bytes are left, and one more, change nothing. -/
theorem get_groups_fuel (count : Nat → Nat) {s : Datastream} {fuel : Nat}
    (h : s.rest.length < fuel) (v : Nat) (b : Byte) (shift : Nat) :
    getGroups count fuel s v b shift = getGroups count (s.rest.length + 1) s v b shift := by
  obtain ⟨fuel, rfl⟩ : ∃ f, fuel = f + 1 := ⟨fuel - 1, by omega⟩
  generalize hrest : s.rest = r at h ⊢
  induction r generalizing s fuel v b shift with
  | nil =>
      -- The one iteration that `get` fails in is the last if `b` ends a number.
      simp only [getGroups, Datastream.get_end hrest, List.length_nil]
      split
      · rfl
      · rename_i htop
        rw [top_bit_clear] at htop
        have hskip : (s.skip 1).rest = [] := by rw [Datastream.rest_skip, hrest, List.drop_nil]
        rw [get_groups_end (by omega) hskip]
  | cons c r ih =>
      have hskip : (s.skip 1).rest = r := Datastream.rest_skip_cons hrest
      rw [get_groups_step _ _ _ _ _ hrest, get_groups_step _ _ _ _ _ hrest]
      split
      · rfl
      · obtain ⟨fuel, rfl⟩ : ∃ f, fuel = f + 1 := ⟨fuel - 1, by simp at h; omega⟩
        exact ih _ _ _ fuel hskip (by simpa using h)

/-- One group goes above those already read. -/
theorem add_group {c : Byte} {v shift : Nat} (hv : v < 2 ^ shift) (hshift : shift < 32)
    (h : c.toNat % 128 * 2 ^ shift < 2 ^ 32) :
    v ||| (shiftLeft (c &&& 0x7f).toUInt32 shift).toNat = v + c.toNat % 128 * 2 ^ shift := by
  rw [shift_left_small hshift (by rw [group_bits]; exact h), group_bits]
  exact or_shift _ hv

/-- The loop reads a sequence of groups that fits into 32 bits. -/
theorem get_groups_terminated {count : Nat → Nat} (hcount : ∀ n, n < 256 → count n = n)
    {bs : Text} (hbs : Terminated bs) {s : Datastream} {r : Text} (h : s.rest = bs ++ r)
    {fuel : Nat} (hfuel : bs.length ≤ fuel) {v shift : Nat} (hv : v < 2 ^ shift)
    (hshift : shift + 7 * (bs.length - 1) < 32) (hvalue : value bs * 2 ^ shift < 2 ^ 32)
    (b : Byte) :
    getGroups count fuel s v b shift = .ok (v + value bs * 2 ^ shift, s.skip bs.length) := by
  induction hbs generalizing s fuel v shift b with
  | last c hc =>
      obtain ⟨fuel, rfl⟩ : ∃ f, fuel = f + 1 := ⟨fuel - 1, by simp at hfuel; omega⟩
      have hgroup : value [c] = c.toNat % 128 := rfl
      rw [hgroup] at hvalue ⊢
      rw [get_groups_step _ _ _ _ _ h, if_pos hc, add_group hv (by omega) hvalue]
      rfl
  | more c bs hc hbs ih =>
      obtain ⟨fuel, rfl⟩ : ∃ f, fuel = f + 1 := ⟨fuel - 1, by simp at hfuel; omega⟩
      have hpos := hbs.length_pos
      have hskip : (s.skip 1).rest = bs ++ r := Datastream.rest_skip_cons h
      simp only [List.length_cons] at hfuel hshift
      have hsplit : value (c :: bs) * 2 ^ shift =
          c.toNat % 128 * 2 ^ shift + value bs * 2 ^ (shift + 7) := by
        show (c.toNat % 128 + 128 * value bs) * 2 ^ shift = _
        rw [Nat.pow_add]
        ring
      rw [hsplit] at hvalue
      have hv' : v + c.toNat % 128 * 2 ^ shift < 2 ^ (shift + 7) := by
        have hgroup : c.toNat % 128 * 2 ^ shift ≤ 127 * 2 ^ shift :=
          Nat.mul_le_mul_right _ (by omega)
        rw [Nat.pow_add]
        omega
      rw [get_groups_step _ _ _ _ _ h, if_neg (by omega), hcount _ (by omega),
        add_group hv (by omega) (by omega),
        ih hskip (by omega) hv' (by omega) (by omega),
        hsplit, Datastream.skip_skip, Nat.add_assoc, List.length_cons, Nat.add_comm 1]

/-- The loop reads back what `putGroups` makes of 32 bits. -/
theorem reads_groups {count : Nat → Nat} (hcount : ∀ n, n < 256 → count n = n) (n : UInt32) :
    Reads (readGroups count) (code n.toNat) n.toNat := by
  intro s r h
  have hlength : (code n.toNat).length ≤ 5 :=
    length_code_le (by omega) (Nat.lt_of_lt_of_le n.toNat_lt (by omega))
  have hfuel : (code n.toNat).length ≤ s.rest.length + 1 := by
    rw [h, List.length_append]
    omega
  have hvalue : value (code n.toNat) * 2 ^ 0 < 2 ^ 32 := by
    rw [value_code, Nat.pow_zero, Nat.mul_one]
    exact n.toNat_lt
  rw [readGroups, get_groups_terminated hcount (terminated_code n.toNat) h hfuel (by omega)
    (by omega) hvalue, value_code, Nat.zero_add, Nat.pow_zero, Nat.mul_one]

/-- Unpacking an `unsigned_int` undoes packing it. -/
theorem reads_unsigned (n : UInt32) : Reads unpackUnsigned (code n.toNat) n := by
  have hread := (reads_groups (fun n hn => Nat.mod_eq_of_lt hn) n).map UInt32.ofNat
  rw [UInt32.ofNat_toNat] at hread
  exact hread

/-- What unpacking a `signed_int` makes of what packing it wrote. -/
theorem reads_signed (n : Int32) :
    Reads unpackSigned (code ((n <<< 1) ^^^ (n >>> 31)).toUInt32.toNat)
      (unzigzag ((n <<< 1) ^^^ (n >>> 31)).toUInt32) := by
  have hread := (reads_groups (fun n _ => id_eq n) ((n <<< 1) ^^^ (n >>> 31)).toUInt32).map
    (fun v => unzigzag (UInt32.ofNat v))
  rw [UInt32.ofNat_toNat] at hread
  exact hread

end BoostRpc.Raw
