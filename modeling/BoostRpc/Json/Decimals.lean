import BoostRpc.Json.Acceptance
import BoostRpc.Rounding

/-!
# Numbers in the text format

The printers write a number with six decimals, so that the text stands for the nearest multiple of
a millionth. `Reprinted v w` says what becomes of a tree that is written and read, with each number
in its place; `numbers_through_text` says which numbers come back, where `qi::double_` makes the
nearest `double` of a numeral.
-/

namespace BoostRpc.Json

open Rounding

/-! ## Six decimals -/

/-- The nearest multiple of a millionth. -/
def sixDecimals (x : ℚ) : ℚ := roundHalfEven (x * 10 ^ 6) / 10 ^ 6

/-- Six decimals are half a millionth away at most. -/
theorem six_decimals_error (x : ℚ) : |x - sixDecimals x| ≤ 1 / 2 / 10 ^ 6 := by
  have hscale : x - sixDecimals x = (x * 10 ^ 6 - roundHalfEven (x * 10 ^ 6)) / 10 ^ 6 := by
    unfold sixDecimals
    ring
  rw [hscale, abs_div, abs_of_pos (by norm_num : (0 : ℚ) < 10 ^ 6)]
  exact div_le_div_of_nonneg_right (round_half_even_error _) (by norm_num)

/-- A multiple of a millionth stays as it is. -/
theorem six_decimals_micros (k : Int) : sixDecimals (k / 10 ^ 6) = k / 10 ^ 6 := by
  unfold sixDecimals
  rw [div_mul_cancel₀ _ (by norm_num), round_half_even_int]

theorem six_decimals_neg (x : ℚ) : sixDecimals (-x) = -sixDecimals x := by
  unfold sixDecimals
  rw [neg_mul, round_half_even_neg]
  push_cast
  ring

/-- Rounding does not pass an integer. -/
theorem six_decimals_le {x : ℚ} {n : Int} (h : x ≤ n) : sixDecimals x ≤ n := by
  have hle : roundHalfEven (x * 10 ^ 6) ≤ n * 10 ^ 6 :=
    round_half_even_le (by push_cast; linarith)
  unfold sixDecimals
  rw [div_le_iff₀ (by norm_num)]
  exact_mod_cast hle

theorem le_six_decimals {x : ℚ} {n : Int} (h : n ≤ x) : n ≤ sixDecimals x := by
  have hle := six_decimals_le (x := -x) (n := -n) (by push_cast; linarith)
  rw [six_decimals_neg] at hle
  push_cast at hle
  linarith

theorem abs_six_decimals_le {x : ℚ} {n : Int} (h : |x| ≤ n) : |sixDecimals x| ≤ n := by
  obtain ⟨hlow, hhigh⟩ := abs_le.mp h
  have hle := le_six_decimals (n := -n) (by push_cast; exact hlow)
  push_cast at hle
  exact abs_le.mpr ⟨hle, six_decimals_le hhigh⟩

/-! ## The numeral that is printed -/

/-- A number of millionths in digits. -/
theorem numeral_value_micros (negative : Bool) (m : Nat) :
    numeralValue negative (decimal (m / 10 ^ 6)) (paddedDigits 6 (m % 10 ^ 6)) 0 =
      (if negative then -1 else 1) * ((m : ℚ) / 10 ^ 6) := by
  have hdigits : digitsValue (decimal (m / 10 ^ 6) ++ paddedDigits 6 (m % 10 ^ 6)) = m := by
    rw [digits_value_append, digits_value_decimal, digits_value_padded, padded_digits_length,
      Nat.mod_mod]
    omega
  rw [numeralValue, hdigits, padded_digits_length, zpow_zero, mul_one]

/-- The number of millionths in the text of a number. -/
theorem micros_toNat {x : ℚ} (h : 0 ≤ x) :
    ((roundHalfEven (x * 10 ^ 6)).toNat : ℚ) / 10 ^ 6 = sixDecimals x := by
  have hle : 0 ≤ roundHalfEven (x * 10 ^ 6) := le_round_half_even (by push_cast; linarith)
  have hcast : ((roundHalfEven (x * 10 ^ 6)).toNat : ℚ) = roundHalfEven (x * 10 ^ 6) := by
    exact_mod_cast congrArg (fun n : Int => (n : ℚ)) (Int.toNat_of_nonneg hle)
  rw [hcast]
  rfl

/-- The number that is read of the text of a number. -/
def Double.reprinted [Platform] : Double → Double
  | .finite x => Platform.ofNumeral (sixDecimals x)
  | .infinity negative => .infinity negative
  | .nan => .nan

variable [Platform]

/-- A number of millionths behind a sign. -/
theorem numeral_micro_text {sgn : Text} {negative : Bool} (hsgn : SignOf sgn negative) (m : Nat) :
    NumeralOf (sgn ++ microText m)
      (Platform.ofNumeral ((if negative then -1 else 1) * ((m : ℚ) / 10 ^ 6))) := by
  have hnumeral := NumeralOf.fraction sgn (decimal (m / 10 ^ 6)) (paddedDigits 6 (m % 10 ^ 6)) []
    negative 0 hsgn (decimal_is_digit _) (padded_is_digit 6 _) (.inl (decimal_ne_nil _)) .none
  rwa [numeral_value_micros, List.append_nil] at hnumeral

/-- What a printed number means. -/
theorem numeral_fixed_text (x : Double) : NumeralOf (fixedText x) x.reprinted := by
  match x with
  | .finite x =>
      by_cases hx : x < 0
      · have hnumeral := numeral_micro_text .minus (roundHalfEven (-x * 10 ^ 6)).toNat
        rw [if_pos rfl, micros_toNat (by linarith), six_decimals_neg, neg_one_mul, neg_neg]
          at hnumeral
        rw [fixedText, if_pos hx]
        exact hnumeral
      · have hnumeral := numeral_micro_text .none (roundHalfEven (x * 10 ^ 6)).toNat
        rw [if_neg Bool.false_ne_true, micros_toNat (not_lt.mp hx), one_mul] at hnumeral
        rw [fixedText, if_neg hx]
        exact hnumeral
  | .infinity true =>
      exact .infinity [ch '-'] (str "inf") [] true .minus (by simp [AnyCase, str]) (.inl rfl)
  | .infinity false =>
      exact .infinity [] (str "inf") [] false .none (by simp [AnyCase, str]) (.inl rfl)
  | .nan => exact .nan [] (str "nan") [] false .none (by simp [AnyCase, str]) .none

/-! ## The tree that is read -/

mutual
/-- `Reprinted v w` says that `w` is `v` with what its strings, keys and numbers are read as. -/
inductive Reprinted : Value → Value → Prop where
  | null : Reprinted .null .null
  | number (x : Double) : Reprinted (.number x) (.number x.reprinted)
  | bool (b : Bool) : Reprinted (.bool b) (.bool b)
  | string (text s : Text) : Unescapes text s → Reprinted (.string text) (.string s)
  | object (keys others : Object) : ReprintedKeys keys others →
      Reprinted (.object keys) (.object others)
  | array (vals others : List Value) : ReprintedVals vals others →
      Reprinted (.array vals) (.array others)

/-- `Reprinted` for the pairs of an object. -/
inductive ReprintedKeys : Object → Object → Prop where
  | nil : ReprintedKeys [] []
  | cons (key name : Text) (val other : Value) (keys others : Object) :
      Unescapes key name → Reprinted val other → ReprintedKeys keys others →
      ReprintedKeys ((key, val) :: keys) ((name, other) :: others)

/-- `Reprinted` for the elements of an array. -/
inductive ReprintedVals : List Value → List Value → Prop where
  | nil : ReprintedVals [] []
  | cons (val other : Value) (vals others : List Value) :
      Reprinted val other → ReprintedVals vals others →
      ReprintedVals (val :: vals) (other :: others)
end

mutual
/-- Every string and key in the value is one that the reader takes between quotes. -/
def Legible : Value → Prop
  | .string text => RelaxedChars text
  | .object keys => LegibleKeys keys
  | .array vals => LegibleVals vals
  | _ => True

/-- `Legible` for the pairs of an object. -/
def LegibleKeys : List (Text × Value) → Prop
  | [] => True
  | (key, val) :: keys => (RelaxedChars key ∧ Legible val) ∧ LegibleKeys keys

/-- `Legible` for the elements of an array. -/
def LegibleVals : List Value → Prop
  | [] => True
  | val :: vals => Legible val ∧ LegibleVals vals
end

mutual
/-- A legible value is read as some value. -/
theorem reprinted {v : Value} (h : Legible v) : ∃ w, Reprinted v w := by
  match v with
  | .null => exact ⟨.null, .null⟩
  | .number x => exact ⟨.number x.reprinted, .number x⟩
  | .bool b => exact ⟨.bool b, .bool b⟩
  | .string text =>
      obtain ⟨s, hs⟩ := unescapes h
      exact ⟨.string s, .string text s hs⟩
  | .object keys =>
      obtain ⟨others, hothers⟩ := reprinted_keys (show LegibleKeys keys from h)
      exact ⟨.object others, .object keys others hothers⟩
  | .array vals =>
      obtain ⟨others, hothers⟩ := reprinted_vals (show LegibleVals vals from h)
      exact ⟨.array others, .array vals others hothers⟩

theorem reprinted_keys {keys : Object} (h : LegibleKeys keys) :
    ∃ others, ReprintedKeys keys others := by
  match keys with
  | [] => exact ⟨[], .nil⟩
  | (key, val) :: keys =>
      obtain ⟨name, hname⟩ := unescapes h.1.1
      obtain ⟨other, hother⟩ := reprinted h.1.2
      obtain ⟨others, hothers⟩ := reprinted_keys h.2
      exact ⟨(name, other) :: others, .cons key name val other keys others hname hother hothers⟩

theorem reprinted_vals {vals : List Value} (h : LegibleVals vals) :
    ∃ others, ReprintedVals vals others := by
  match vals with
  | [] => exact ⟨[], .nil⟩
  | val :: vals =>
      obtain ⟨other, hother⟩ := reprinted h.1
      obtain ⟨others, hothers⟩ := reprinted_vals h.2
      exact ⟨other :: others, .cons val other vals others hother hothers⟩
end

mutual
/-- The compact text means the tree that is read. -/
theorem means_print {v w : Value} (h : Reprinted v w) : Means (jsonValuePrinter v) w := by
  match h with
  | .null => exact .null
  | .number x => exact .number (fixedText x) _ (numeral_fixed_text x)
  | .bool b => exact .bool b
  | .string text s hs => exact .string text s hs
  | .object _ _ .nil => exact .emptyObject [] .nil
  | .object _ _ (.cons key name val other keys others hname hval hkeys) =>
      exact .object _ _ (means_print_keys (.cons key name val other keys others hname hval hkeys)
        (by simp))
  | .array _ _ .nil => exact .emptyArray [] .nil
  | .array _ _ (.cons val other vals others hval hvals) =>
      exact .array _ _ (means_print_vals (.cons val other vals others hval hvals) (by simp))

theorem means_print_keys {keys others : Object} (h : ReprintedKeys keys others)
    (hne : keys ≠ []) : MeansMembers (printKeys keys) others := by
  match h with
  | .nil => exact absurd rfl hne
  | .cons key name val other _ _ hname hval .nil =>
      simpa [printKeys] using
        MeansMembers.last [] key [] [] _ [] name other .nil hname .nil .nil (means_print hval) .nil
  | .cons key name val other (next :: keys) others hname hval hkeys =>
      simpa [printKeys] using MeansMembers.cons [] key [] [] _ [] _ name other others .nil hname
        .nil .nil (means_print hval) .nil (means_print_keys hkeys (by simp))

theorem means_print_vals {vals others : List Value} (h : ReprintedVals vals others)
    (hne : vals ≠ []) : MeansElements (printVals vals) others := by
  match h with
  | .nil => exact absurd rfl hne
  | .cons val other _ _ hval .nil =>
      simpa [printVals] using MeansElements.last [] _ [] other .nil (means_print hval) .nil
  | .cons val other (next :: vals) others hval hvals =>
      simpa [printVals] using MeansElements.cons [] _ [] _ other others .nil (means_print hval)
        .nil (means_print_vals hvals (by simp))
end

mutual
/-- The indented text means the tree that is read, at every depth. -/
theorem means_pretty {v w : Value} (depth : Nat) (h : Reprinted v w) :
    Means (jsonValuePrettyPrinter depth v) w := by
  match h with
  | .null => exact .null
  | .number x => exact .number (fixedText x) _ (numeral_fixed_text x)
  | .bool b => exact .bool b
  | .string text s hs => exact .string text s hs
  | .object _ _ .nil => exact .emptyObject [] .nil
  | .object _ _ (.cons key name val other keys others hname hval hkeys) =>
      have hbody := means_pretty_keys depth
        (.cons key name val other keys others hname hval hkeys) (by simp)
      have hspaced := (hbody.trail (spaces_replicate (depth * 4 - 4 - 1))).prepend spaces_newline
      simpa [jsonValuePrettyPrinter, setw_singleton] using Means.object _ _ hspaced
  | .array _ _ .nil => exact .emptyArray [] .nil
  | .array _ _ (.cons val other vals others hval hvals) =>
      have hbody := means_pretty_vals depth (.cons val other vals others hval hvals) (by simp)
      have hspaced := (hbody.trail (spaces_replicate (depth * 4 - 4 - 1))).prepend spaces_newline
      simpa [jsonValuePrettyPrinter, setw_singleton] using Means.array _ _ hspaced

theorem means_pretty_keys {keys others : Object} (depth : Nat) (h : ReprintedKeys keys others)
    (hne : keys ≠ []) : MeansMembers (prettyKeys depth keys) others := by
  have hpad := spaces_replicate (depth * 4 - 1)
  match h with
  | .nil => exact absurd rfl hne
  | .cons key name val other _ _ hname hval .nil =>
      have htext := means_pretty (depth + 1) hval
      simpa [prettyKeys, setw_singleton, quoted] using
        MeansMembers.last _ key [] [] _ _ name other hpad hname .nil .nil htext spaces_newline
  | .cons key name val other (next :: keys) others hname hval hkeys =>
      have htext := means_pretty (depth + 1) hval
      have hrest := means_pretty_keys depth hkeys (by simp)
      simpa [prettyKeys, setw_singleton, quoted] using
        MeansMembers.cons _ key [] [] _ [] _ name other others hpad hname .nil .nil htext .nil
          (hrest.prepend spaces_newline)

theorem means_pretty_vals {vals others : List Value} (depth : Nat) (h : ReprintedVals vals others)
    (hne : vals ≠ []) : MeansElements (prettyVals depth vals) others := by
  have hpad : Spaces (setw (depth * 4) [32]) := by
    rw [setw_singleton]
    exact (spaces_replicate _).append (.cons (by decide) .nil)
  match h with
  | .nil => exact absurd rfl hne
  | .cons val other _ _ hval .nil =>
      have htext := means_pretty (depth + 1) hval
      simpa [prettyVals] using
        MeansElements.last _ _ _ other hpad htext spaces_newline
  | .cons val other (next :: vals) others hval hvals =>
      have htext := means_pretty (depth + 1) hval
      have hrest := means_pretty_vals depth hvals (by simp)
      simpa [prettyVals] using MeansElements.cons _ _ [] _ other others hpad htext .nil
        (hrest.prepend spaces_newline)
end

/-- What is written is read as the tree. -/
theorem read_reprinted {v w : Value} (h : Reprinted v w) {pretty : Bool} {text : Text}
    (hwrite : write v pretty = some text) : read text = .ok w := by
  have hmeans : Means text w := by
    unfold write at hwrite
    split at hwrite
    · obtain rfl := Option.some.inj hwrite
      cases pretty with
      | false => exact means_print h
      | true => exact means_pretty 1 h
    · cases hwrite
  simpa using read_means Spaces.nil hmeans Spaces.nil

/-! ## Places -/

omit [Platform] in
/-- The value at a place: an index for each vector on the way to it. -/
def Value.place : Value → List Nat → Option Value
  | v, [] => some v
  | .object keys, i :: path => keys[i]?.bind fun entry => entry.2.place path
  | .array vals, i :: path => vals[i]?.bind fun val => val.place path
  | _, _ :: _ => none

/-- Related lists have related elements at the same index. -/
theorem ReprintedKeys.get {keys others : Object} (h : ReprintedKeys keys others) {i : Nat}
    {entry : Text × Value} (hi : keys[i]? = some entry) :
    ∃ other, others[i]? = some other ∧ Reprinted entry.2 other.2 := by
  induction i generalizing keys others with
  | zero =>
      cases h with
      | nil => cases hi
      | cons key name val other keys others _ hval _ =>
          obtain rfl := Option.some.inj hi
          exact ⟨(name, other), rfl, hval⟩
  | succ i ih =>
      cases h with
      | nil => cases hi
      | cons key name val other keys others _ _ hkeys => exact ih hkeys hi

theorem ReprintedVals.get {vals others : List Value} (h : ReprintedVals vals others) {i : Nat}
    {val : Value} (hi : vals[i]? = some val) :
    ∃ other, others[i]? = some other ∧ Reprinted val other := by
  induction i generalizing vals others with
  | zero =>
      cases h with
      | nil => cases hi
      | cons val' other vals others hval _ =>
          obtain rfl := Option.some.inj hi
          exact ⟨other, rfl, hval⟩
  | succ i ih =>
      cases h with
      | nil => cases hi
      | cons _ _ vals others _ hvals => exact ih hvals hi

/-- Every value is in its place in the tree that is read. -/
theorem Reprinted.at_place {v w u : Value} {path : List Nat} (h : Reprinted v w)
    (hu : v.place path = some u) : ∃ other, w.place path = some other ∧ Reprinted u other := by
  induction path generalizing v w with
  | nil =>
      have hv : v = u := Option.some.inj (by simpa [Value.place] using hu)
      exact ⟨w, by simp [Value.place], hv ▸ h⟩
  | cons i path ih =>
      cases h with
      | object keys others hkeys =>
          obtain ⟨entry, hentry, hplace⟩ := Option.bind_eq_some_iff.mp hu
          obtain ⟨other, hother, hval⟩ := hkeys.get hentry
          obtain ⟨w, hw, hrelated⟩ := ih hval hplace
          exact ⟨w, Option.bind_eq_some_iff.mpr ⟨other, hother, hw⟩, hrelated⟩
      | array vals others hvals =>
          obtain ⟨val, hval, hplace⟩ := Option.bind_eq_some_iff.mp hu
          obtain ⟨other, hother, hrelated⟩ := hvals.get hval
          obtain ⟨w, hw, hrelated⟩ := ih hrelated hplace
          exact ⟨w, Option.bind_eq_some_iff.mpr ⟨other, hother, hw⟩, hrelated⟩
      | null | number | bool | string => cases hu

/-! ## The numbers that come back -/

omit [Platform] in
/-- The greatest finite `double`. -/
def largest : ℚ := (2 ^ 53 - 1) * 2 ^ 971

omit [Platform] in
/-- The rational is a finite `double`. -/
def FiniteDouble (x : ℚ) : Prop := Format.binary64.Represents x ∧ |x| ≤ largest

/-- `qi::double_` makes the nearest `double` of a numeral, where that is finite. -/
def NearestNumerals : Prop :=
  ∀ q, |q| ≤ largest → Platform.ofNumeral q = .finite (Format.binary64.nearest q)

omit [Platform] in
/-- The `double` nearest to the six decimals. -/
def throughText (x : ℚ) : ℚ := Format.binary64.nearest (sixDecimals x)

omit [Platform] in
/-- Six decimals do not pass the greatest `double`, which is an integer. -/
theorem six_decimals_largest {x : ℚ} (h : |x| ≤ largest) : |sixDecimals x| ≤ largest := by
  have hint : largest = (((2 ^ 53 - 1) * 2 ^ 971 : Int) : ℚ) := by
    rw [largest, Int.cast_mul, Int.cast_sub, Int.cast_pow, Int.cast_pow, Int.cast_ofNat,
      Int.cast_one]
  rw [hint] at h ⊢
  exact abs_six_decimals_le h

omit [Platform] in
theorem le_largest {x : ℚ} (h : |x| ≤ 1) : |x| ≤ largest :=
  h.trans (one_le_mul_of_one_le_of_one_le (by norm_num) (one_le_pow₀ one_le_two))

omit [Platform] in
/-- A multiple of a millionth that is a `double` comes back. -/
theorem through_text_micros {x : ℚ} (h : Format.binary64.Represents x) {k : Int}
    (hk : x = k / 10 ^ 6) : throughText x = x := by
  rw [throughText, hk, six_decimals_micros, ← hk]
  exact h.nearest_self

omit [Platform] in
/-- What comes back is a millionth away at most. -/
theorem through_text_error {x : ℚ} (h : Format.binary64.Represents x) :
    |x - throughText x| ≤ 1 / 10 ^ 6 := by
  have hsix := six_decimals_error x
  have hnear := Format.binary64.nearest_le_dist (sixDecimals x) h
  have htriangle := abs_sub_le x (sixDecimals x) (throughText x)
  rw [abs_sub_comm (sixDecimals x) x] at hnear
  unfold throughText at htriangle ⊢
  linarith

omit [Platform] in
/-- From `2 ^ 33` on two numbers of the format are more than a millionth apart. -/
theorem through_text_large {x : ℚ} (h : Format.binary64.Represents x) (hx : 2 ^ 33 ≤ |x|) :
    throughText x = x := by
  have hpower : Format.binary64.Represents (2 ^ 33) := ⟨1, 33, by decide, by decide, by norm_num⟩
  have hpower' : Format.binary64.Represents (-2 ^ 33) :=
    ⟨-1, 33, by decide, by decide, by norm_num⟩
  have habove : 2 ^ 33 ≤ |throughText x| := by
    rcases le_abs.mp hx with hpos | hneg
    · have hsix := le_six_decimals (x := x) (n := 2 ^ 33) (by exact_mod_cast hpos)
      exact le_abs.mpr (.inl (Format.binary64.le_nearest hpower (by exact_mod_cast hsix)))
    · have hsix := six_decimals_le (x := x) (n := -2 ^ 33) (by push_cast; linarith)
      have hle := Format.binary64.nearest_le hpower' (by exact_mod_cast hsix)
      exact le_abs.mpr (.inr (by unfold throughText; linarith))
  have hscale : (2 : ℚ) ^ ((-19 : Int) + Format.binary64.precision - 1) = 2 ^ 33 := by
    norm_num [Format.binary64]
  have hnear : |throughText x - x| < 2 ^ (-19 : Int) := by
    have herror := through_text_error h
    rw [abs_sub_comm] at herror
    norm_num at herror ⊢
    linarith
  exact (Format.binary64.represents_nearest _).eq_of_near h (by rwa [hscale]) (by rwa [hscale])
    hnear

omit [Platform] in
/-- Numbers of less than half a millionth are lost. -/
theorem through_text_small {x : ℚ} (h : |x| < 1 / 2 / 10 ^ 6) : throughText x = 0 := by
  have hsix : sixDecimals x = 0 := by
    have hround : roundHalfEven (x * 10 ^ 6) = 0 := by
      have hless : |x * 10 ^ 6| < 1 / 2 := by
        rw [abs_mul, abs_of_pos (by norm_num : (0 : ℚ) < 10 ^ 6)]
        rwa [lt_div_iff₀ (by norm_num)] at h
      exact round_half_even_eq (by simpa using hless.le) fun _ => rfl
    simp [sixDecimals, hround]
  have hzero : Format.binary64.Represents 0 := ⟨0, 0, by decide, by decide, by simp⟩
  rw [throughText, hsix, hzero.nearest_self]

omit [Platform] in
/-- The text of a number begins with a minus exactly where the number is negative. -/
theorem fixed_text_minus (x : ℚ) : (fixedText (.finite x)).head? = some (ch '-') ↔ x < 0 := by
  by_cases hx : x < 0
  · simp [fixedText, hx]
  · obtain ⟨c, digits, hcons⟩ :=
      List.exists_cons_of_ne_nil (decimal_ne_nil ((roundHalfEven (x * 10 ^ 6)).toNat / 10 ^ 6))
    have hdigit : isDigit c = true := decimal_is_digit _ c (hcons ▸ List.mem_cons_self)
    have hminus := (digits_unsigned c hdigit).1
    rw [fixedText, if_neg hx, microText, hcons, List.cons_append, List.head?_cons, Option.some_inj]
    exact iff_of_false hminus hx

omit [Platform] in
/-- The text of a number determines its six decimals and its sign, and nothing else. -/
theorem fixed_text_eq_iff (x y : ℚ) : fixedText (.finite x) = fixedText (.finite y) ↔
    sixDecimals x = sixDecimals y ∧ (x < 0 ↔ y < 0) := by
  constructor
  · intro h
    let _ := Platform.exact false
    have hx := Means.number _ _ (numeral_fixed_text (.finite x))
    rw [h] at hx
    have hsame := means_unique hx (Means.number _ _ (numeral_fixed_text (.finite y)))
    refine ⟨Double.finite.inj (Value.number.inj hsame), ?_⟩
    rw [← fixed_text_minus, ← fixed_text_minus, h]
  · rintro ⟨hsix, hsign⟩
    have hround : roundHalfEven (x * 10 ^ 6) = roundHalfEven (y * 10 ^ 6) := by
      have hcast := (div_left_inj' (by norm_num : (10 : ℚ) ^ 6 ≠ 0)).mp hsix
      exact_mod_cast hcast
    simp only [fixedText, neg_mul, round_half_even_neg, hround, hsign]

/-- A tree that is written and read has every finite `double` in its place again as the `double`
nearest to its six decimals. That is a millionth away at most, and it is the number itself where
that is a multiple of a millionth or not less than `2 ^ 33`; what is less than half a millionth is
lost. -/
theorem numbers_through_text (hnumerals : NearestNumerals) {v : Value} {pretty : Bool} {text : Text}
    (hlegible : Legible v) (hwrite : write v pretty = some text) :
    ∃ w, read text = .ok w ∧
      ∀ path x, FiniteDouble x → v.place path = some (.number (.finite x)) →
        w.place path = some (.number (.finite (throughText x))) ∧
        |x - throughText x| ≤ 1 / 10 ^ 6 ∧
        (∀ k : Int, x = k / 10 ^ 6 → throughText x = x) ∧
        (2 ^ 33 ≤ |x| → throughText x = x) ∧
        (|x| < 1 / 2 / 10 ^ 6 → throughText x = 0) ∧
        ∀ y, fixedText (.finite x) = fixedText (.finite y) ↔
          sixDecimals x = sixDecimals y ∧ (x < 0 ↔ y < 0) := by
  obtain ⟨w, hw⟩ := reprinted hlegible
  refine ⟨w, read_reprinted hw hwrite, fun path x hx hplace => ?_⟩
  obtain ⟨other, hother, hnumber⟩ := hw.at_place hplace
  have hread : Double.reprinted (.finite x) = .finite (throughText x) :=
    hnumerals _ (six_decimals_largest hx.2)
  cases hnumber
  rw [hread] at hother
  exact ⟨hother, through_text_error hx.1, fun k hk => through_text_micros hx.1 hk,
    through_text_large hx.1, through_text_small, fixed_text_eq_iff x⟩

omit [Platform] in
/-- A platform whose numerals are the nearest `double`s. -/
@[reducible] def Platform.nearest : Platform where
  ofNumeral q := .finite (Format.binary64.nearest q)
  printGeneral := (Platform.exact false).printGeneral
  lastArgumentFirst := false

omit [Platform] in
theorem numbers_through_text_half :
    ∃ w, @read .nearest (str "[0.500000]") = .ok w ∧
      w.place [0] = some (.number (.finite (1 / 2))) := by
  have hwrite : write (.array [.number (.finite (1 / 2))]) false = some (str "[0.500000]") := by
    decide +kernel
  have hfinite : FiniteDouble (1 / 2) :=
    ⟨⟨1, -1, by decide, by decide, by norm_num⟩, le_largest (by norm_num [abs_le])⟩
  obtain ⟨w, hread, hplaces⟩ := @numbers_through_text .nearest (fun _ _ => rfl) _ false _
    (show Legible (.array [.number (.finite (1 / 2))]) from ⟨trivial, trivial⟩) hwrite
  obtain ⟨hplace, -, hmicros, -⟩ := hplaces [0] (1 / 2) hfinite rfl
  have hsame := hmicros 500000 (by norm_num)
  exact ⟨w, hread, hsame ▸ hplace⟩

omit [Platform] in
/-- `2 ^ -21` is written as zero, and a number behind a string with a quote is not read at all. -/
theorem number_lost :
    (FiniteDouble (1 / 2 ^ 21) ∧
      write (.number (.finite (1 / 2 ^ 21))) false = some (str "0.000000") ∧
      @read .nearest (str "0.000000") = .ok (.number (.finite 0))) ∧
    (write (.array [.string (str "\""), .number (.finite 1)]) false =
        some (str "[\"\"\",1.000000]") ∧
      @read .nearest (str "[\"\"\",1.000000]") = .error (.thrown .jsonParseError)) := by
  have hwrite : write (.number (.finite (1 / 2 ^ 21))) false = some (str "0.000000") := by
    decide +kernel
  have hquote : write (.array [.string (str "\""), .number (.finite 1)]) false =
      some (str "[\"\"\",1.000000]") := by
    decide +kernel
  have hfail : (@jsonR .nearest (str "[\"\"\",1.000000]")).isNone = true := by decide +kernel
  have hfinite : FiniteDouble (1 / 2 ^ 21) :=
    ⟨⟨1, -21, by decide, by decide, by norm_num⟩, le_largest (by norm_num [abs_le])⟩
  have hread : @read .nearest (str "0.000000") =
      .ok (.number (.finite (throughText (1 / 2 ^ 21)))) := by
    let _ := Platform.nearest
    exact read_reprinted (.number (.finite (1 / 2 ^ 21))) hwrite
  have hzero : throughText (1 / 2 ^ 21) = 0 := through_text_small (by norm_num [abs_lt])
  refine ⟨⟨hfinite, hwrite, ?_⟩, hquote, ?_⟩
  · rw [hread, hzero]
  · unfold read
    rw [Option.isNone_iff_eq_none.mp hfail]

end BoostRpc.Json
