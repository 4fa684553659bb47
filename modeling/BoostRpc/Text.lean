import Mathlib.Data.List.Basic
import Mathlib.Data.List.Induction
import Mathlib.Data.List.TakeWhile
import Mathlib.Tactic.Common
import Mathlib.Tactic.IntervalCases
import Mathlib.Tactic.Ring

/-!
# Bytes, strings and decimal digits

A `std::string` is a list of bytes. `decimal` and `paddedDigits` print natural numbers in base
ten and `digitsValue` reads them back; `digits_value_decimal` and `digits_value_padded` are the
two round trips.
-/

namespace BoostRpc

/-- A `char` of the source, as an unsigned byte. -/
abbrev Byte := UInt8

/-- A `std::string`: any sequence of bytes. -/
abbrev Text := List Byte

/-- The byte of an ASCII character. -/
def ch (c : Char) : Byte := c.toUInt8

/-- The bytes of an ASCII literal. -/
def str (s : String) : Text := s.toList.map ch

/-- Distinct ASCII characters have distinct bytes. -/
@[simp] theorem ch_eq_ch {c d : Char} (hc : c.toNat < 256) (hd : d.toNat < 256) :
    ch c = ch d ↔ c = d := by
  constructor
  · intro h
    have hval : (ch c).toNat = (ch d).toNat := congrArg UInt8.toNat h
    have byte_val : ∀ e : Char, e.toNat < 256 → (ch e).toNat = e.toNat := fun e he => by
      simp only [ch, Char.toUInt8, UInt32.toNat_toUInt8]
      exact Nat.mod_eq_of_lt he
    rw [byte_val c hc, byte_val d hd] at hval
    exact Char.toNat_inj.mp hval
  · exact congrArg ch

/-- A decidable property of bytes holds of all where it holds of the 256 of them. -/
theorem forall_byte {P : Byte → Prop} [DecidablePred P]
    (h : ∀ n : Fin 256, P (UInt8.ofNat n.val)) (c : Byte) : P c := by
  have hc := h ⟨c.toNat, c.toNat_lt⟩
  rwa [UInt8.ofNat_toNat] at hc

/-- `boost::spirit::ascii::space`: blank, tab, line feed, vertical tab, form feed and carriage
return. -/
def isSpace (c : Byte) : Bool := c == 32 || (9 ≤ c && c ≤ 13)

/-- `boost::spirit::ascii::char_` matches the bytes of the ASCII range. -/
def isAscii (c : Byte) : Bool := c < 128

/-- A decimal digit. -/
def isDigit (c : Byte) : Bool := ch '0' ≤ c && c ≤ ch '9'

/-- The byte of a digit below ten. -/
def digit (d : Nat) : Byte := UInt8.ofNat (48 + d)

/-- The digit that a byte stands for. -/
def digitValue (c : Byte) : Nat := c.toNat - 48

theorem digit_value_digit {d : Nat} (h : d < 10) : digitValue (digit d) = d := by
  interval_cases d <;> rfl

theorem is_digit_digit {d : Nat} (h : d < 10) : isDigit (digit d) = true := by
  interval_cases d <;> decide

theorem ch_digit_char {d : Nat} (h : d < 10) : ch (Nat.digitChar d) = digit d := by
  interval_cases d <;> rfl

/-- The decimal digits of a natural number, the most significant first. -/
def decimal (n : Nat) : Text := (Nat.toDigits 10 n).map ch

/-- The last `width` decimal digits of `n`. -/
def paddedDigits : Nat → Nat → Text
  | 0, _ => []
  | width + 1, n => paddedDigits width (n / 10) ++ [digit (n % 10)]

/-- The number that a run of digits stands for. -/
def digitsValue (digits : Text) : Nat := digits.foldl (fun n c => 10 * n + digitValue c) 0

/-- The last digit comes off the end. -/
theorem decimal_eq (n : Nat) :
    decimal n = (if n < 10 then [] else decimal (n / 10)) ++ [digit (n % 10)] := by
  unfold decimal
  rw [Nat.toDigits_eq_if (by omega)]
  split
  · rename_i h
    simp [ch_digit_char h, Nat.mod_eq_of_lt h]
  · simp [ch_digit_char (Nat.mod_lt n (by omega : 10 > 0))]

theorem digits_value_snoc (digits : Text) (c : Byte) :
    digitsValue (digits ++ [c]) = 10 * digitsValue digits + digitValue c := by
  simp [digitsValue, List.foldl_append]

/-- Digits behind others shift them by their number. -/
theorem digits_value_append (first second : Text) :
    digitsValue (first ++ second) =
      digitsValue first * 10 ^ second.length + digitsValue second := by
  induction second using List.reverseRecOn with
  | nil => simp [digitsValue]
  | append_singleton second c ih =>
      rw [← List.append_assoc, digits_value_snoc, ih, digits_value_snoc, List.length_append,
        List.length_singleton, pow_succ]
      ring

theorem digits_value_decimal (n : Nat) : digitsValue (decimal n) = n := by
  induction n using Nat.strong_induction_on with
  | _ n ih =>
      rw [decimal_eq, digits_value_snoc, digit_value_digit (Nat.mod_lt n (by omega))]
      split
      · rename_i h
        simp only [digitsValue, List.foldl_nil]
        omega
      · rw [ih (n / 10) (by omega)]
        omega

theorem decimal_is_digit (n : Nat) : ∀ c ∈ decimal n, isDigit c = true := by
  induction n using Nat.strong_induction_on with
  | _ n ih =>
      rw [decimal_eq]
      intro c hc
      rcases List.mem_append.mp hc with hc | hc
      · split at hc
        · exact absurd hc (List.not_mem_nil)
        · exact ih (n / 10) (by omega) c hc
      · rw [List.mem_singleton.mp hc]
        exact is_digit_digit (Nat.mod_lt n (by omega))

theorem decimal_ne_nil (n : Nat) : decimal n ≠ [] := by
  rw [decimal_eq]
  simp

@[simp] theorem padded_digits_length (width n : Nat) : (paddedDigits width n).length = width := by
  induction width generalizing n with
  | zero => rfl
  | succ width ih => simp [paddedDigits, ih]

theorem padded_is_digit (width n : Nat) : ∀ c ∈ paddedDigits width n, isDigit c = true := by
  induction width generalizing n with
  | zero => exact fun c hc => absurd hc (List.not_mem_nil)
  | succ width ih =>
      intro c hc
      rcases List.mem_append.mp hc with hc | hc
      · exact ih (n / 10) c hc
      · rw [List.mem_singleton.mp hc]
        exact is_digit_digit (Nat.mod_lt n (by omega))

theorem digits_value_padded (width n : Nat) :
    digitsValue (paddedDigits width n) = n % 10 ^ width := by
  induction width generalizing n with
  | zero => simp [paddedDigits, digitsValue, Nat.mod_one]
  | succ width ih =>
      rw [paddedDigits, digits_value_snoc, ih, digit_value_digit (Nat.mod_lt n (by omega)),
        pow_succ', Nat.mod_mul]
      omega

/-! ## Runs of one kind of byte -/

/-- The run of bytes in front is taken whole. -/
theorem take_while_append {test : Byte → Bool} {run rest : Text} (hrun : ∀ c ∈ run, test c = true)
    (hrest : ∀ c ∈ rest.head?, test c = false) : (run ++ rest).takeWhile test = run := by
  rw [List.takeWhile_append_of_pos hrun]
  cases rest with
  | nil => simp
  | cons c rest => simp [hrest c rfl]

/-- Behind the run of bytes in front is what follows it. -/
theorem drop_while_append {test : Byte → Bool} {run rest : Text} (hrun : ∀ c ∈ run, test c = true)
    (hrest : ∀ c ∈ rest.head?, test c = false) : (run ++ rest).dropWhile test = rest := by
  rw [List.dropWhile_append_of_pos hrun]
  cases rest with
  | nil => rfl
  | cons c rest => simp [hrest c rfl]

end BoostRpc
