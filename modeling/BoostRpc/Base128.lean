import Mathlib.Data.Nat.Bitwise
import Mathlib.Tactic.Common

/-!
# Numbers in groups of seven bits

A number is written as bytes that hold seven bits each, the lowest first; the top bit of a byte
says that another one follows. `Terminated` says that bytes are such a sequence, `value` is the
number that they stand for and `code` the sequence that a writer chooses: `terminated_code`,
`value_code` and `length_code_le` are its properties. `value_append` is the rule for the number of
bytes in a row.
-/

namespace Base128

/-- All bytes but the last have their top bit set. -/
inductive Terminated : List UInt8 → Prop where
  | last (b : UInt8) : b.toNat < 128 → Terminated [b]
  | more (b : UInt8) (bs : List UInt8) : 128 ≤ b.toNat → Terminated bs → Terminated (b :: bs)

/-- The number that bytes stand for: their low seven bits, the lowest group first. -/
def value : List UInt8 → Nat
  | [] => 0
  | b :: bs => b.toNat % 128 + 128 * value bs

/-- The shortest sequence for a number. -/
def code (n : Nat) : List UInt8 :=
  if n < 128 then [UInt8.ofNat n] else UInt8.ofNat (n % 128 + 128) :: code (n / 128)
termination_by n
decreasing_by omega

theorem code_small {n : Nat} (h : n < 128) : code n = [UInt8.ofNat n] := by
  rw [code, if_pos h]

theorem code_large {n : Nat} (h : 128 ≤ n) :
    code n = UInt8.ofNat (n % 128 + 128) :: code (n / 128) := by
  rw [code, if_neg (Nat.not_lt.mpr h)]

theorem to_nat_of_nat {n : Nat} (h : n < 256) : (UInt8.ofNat n).toNat = n :=
  UInt8.toNat_ofNat_of_lt' h

/-- Induction on the groups of a number. -/
@[elab_as_elim] theorem groups_induction {P : Nat → Prop} (small : ∀ n, n < 128 → P n)
    (large : ∀ n, 128 ≤ n → P (n / 128) → P n) (n : Nat) : P n := by
  induction n using Nat.strong_induction_on with
  | _ n ih =>
      by_cases h : n < 128
      · exact small n h
      · exact large n (by omega) (ih (n / 128) (by omega))

theorem terminated_code (n : Nat) : Terminated (code n) := by
  induction n using groups_induction with
  | small n h =>
      rw [code_small h]
      exact .last _ (by rw [to_nat_of_nat (by omega)]; exact h)
  | large n h ih =>
      rw [code_large h]
      exact .more _ _ (by rw [to_nat_of_nat (by omega)]; omega) ih

theorem value_code (n : Nat) : value (code n) = n := by
  induction n using groups_induction with
  | small n h =>
      rw [code_small h]
      show (UInt8.ofNat n).toNat % 128 + 128 * 0 = n
      rw [to_nat_of_nat (by omega)]
      omega
  | large n h ih =>
      rw [code_large h]
      show (UInt8.ofNat (n % 128 + 128)).toNat % 128 + 128 * value (code (n / 128)) = n
      rw [ih, to_nat_of_nat (by omega)]
      omega

/-- A number below `128 ^ k` takes at most `k` bytes. -/
theorem length_code_le {n k : Nat} (hk : 0 < k) (h : n < 128 ^ k) : (code n).length ≤ k := by
  induction k generalizing n with
  | zero => omega
  | succ k ih =>
      by_cases hn : n < 128
      · rw [code_small hn]
        show 1 ≤ k + 1
        omega
      · have hpos : 0 < k := by
          cases k with
          | zero => rw [Nat.zero_add, Nat.pow_one] at h; omega
          | succ k => omega
        have hrest : n / 128 < 128 ^ k := by
          rw [Nat.pow_succ] at h
          exact Nat.div_lt_of_lt_mul (by omega)
        rw [code_large (by omega)]
        show (code (n / 128)).length + 1 ≤ k + 1
        exact Nat.succ_le_succ (ih hpos hrest)

theorem Terminated.length_pos {bs : List UInt8} (h : Terminated bs) : 0 < bs.length := by
  cases h with
  | last b _ => exact Nat.one_pos
  | more b bs _ _ => exact Nat.succ_pos bs.length

/-- The number that bytes in a row stand for. -/
theorem value_append (front back : List UInt8) :
    value (front ++ back) = value front + 128 ^ front.length * value back := by
  induction front with
  | nil =>
      rw [List.nil_append, List.length_nil, Nat.pow_zero, Nat.one_mul]
      exact (Nat.zero_add _).symm
  | cons b front ih =>
      show b.toNat % 128 + 128 * value (front ++ back) = _
      rw [ih, List.length_cons, Nat.pow_succ, Nat.mul_add, ← Nat.mul_assoc,
        Nat.mul_comm 128 (128 ^ front.length), ← Nat.add_assoc]
      rfl

theorem value_lt (bytes : List UInt8) : value bytes < 128 ^ bytes.length := by
  induction bytes with
  | nil => exact Nat.one_pos
  | cons b bytes ih =>
      show b.toNat % 128 + 128 * value bytes < 128 ^ (bytes.length + 1)
      rw [Nat.pow_succ]
      omega

/-- The last byte of a sequence is the only one that asks for no other. -/
theorem terminated_iff {bs : List UInt8} :
    Terminated bs ↔ ∃ front last, bs = front ++ [last] ∧ (∀ b ∈ front, 128 ≤ b.toNat) ∧
      last.toNat < 128 := by
  constructor
  · intro h
    induction h with
    | last b hb => exact ⟨[], b, rfl, nofun, hb⟩
    | more b bs hb _ ih =>
        obtain ⟨front, last, rfl, hfront, hlast⟩ := ih
        exact ⟨b :: front, last, rfl, List.forall_mem_cons.mpr ⟨hb, hfront⟩, hlast⟩
  · intro h
    obtain ⟨front, last, rfl, hfront, hlast⟩ := h
    induction front with
    | nil => exact .last last hlast
    | cons b front ih =>
        obtain ⟨hb, hfront⟩ := List.forall_mem_cons.mp hfront
        exact .more b _ hb (ih hfront)

/-- Bytes start with a sequence, or each of them asks for another one. -/
theorem starts_terminated_or (bytes : List UInt8) :
    (∃ bs r, bytes = bs ++ r ∧ Terminated bs) ∨ ∀ b ∈ bytes, 128 ≤ b.toNat := by
  induction bytes with
  | nil => exact .inr nofun
  | cons b bytes ih =>
      by_cases hb : b.toNat < 128
      · exact .inl ⟨[b], bytes, rfl, .last b hb⟩
      · rcases ih with ⟨bs, r, rfl, hbs⟩ | hall
        · exact .inl ⟨b :: bs, r, rfl, .more b bs (by omega) hbs⟩
        · exact .inr (List.forall_mem_cons.mpr ⟨by omega, hall⟩)

theorem length_code_pos (n : Nat) : 0 < (code n).length := (terminated_code n).length_pos

/-- Adding a group above the ones already read is setting its bits. -/
theorem or_shift {v shift : Nat} (group : Nat) (h : v < 2 ^ shift) :
    v ||| group <<< shift = v + group * 2 ^ shift := by
  rw [Nat.lor_comm, ← Nat.shiftLeft_add_eq_or_of_lt h, Nat.shiftLeft_eq]
  omega

end Base128
