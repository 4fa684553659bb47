import Mathlib.Data.Int.Log
import Mathlib.Data.Rat.Floor
import Mathlib.Algebra.Order.Field.Power
import Mathlib.Tactic.Linarith
import Mathlib.Tactic.Ring

/-!
# Rounding to nearest

Rounding of rationals to the nearest integer and to the nearest number of a binary format, ties to
even. `Format.nearest_le_dist` says that no number of the format is nearer than `Format.nearest`,
and `Format.nearest_eq_self_iff` that exactly the numbers of the format stay as they are.
-/

namespace BoostRpc.Rounding

/-! ## Integers -/

/-- The nearest integer, and the even one of two equally near. -/
def roundHalfEven (x : ℚ) : Int :=
  let below := ⌊x⌋
  if x - below < 1 / 2 then below
  else if 1 / 2 < x - below then below + 1
  else if below % 2 = 0 then below else below + 1

theorem round_half_even_int (n : Int) : roundHalfEven n = n := by
  simp [roundHalfEven]

/-- The nearest integer is one half away at most. -/
theorem round_half_even_error (x : ℚ) : |x - roundHalfEven x| ≤ 1 / 2 := by
  have hlow := Int.floor_le x
  have hhigh := Int.lt_floor_add_one x
  unfold roundHalfEven
  dsimp only
  split_ifs with hless hmore heven
  · exact abs_le.mpr ⟨by linarith, by linarith⟩
  · push_cast
    exact abs_le.mpr ⟨by linarith, by linarith⟩
  · exact abs_le.mpr ⟨by linarith, by linarith⟩
  · push_cast
    exact abs_le.mpr ⟨by linarith, by linarith⟩

/-- No integer is nearer than the nearest one. -/
theorem round_half_even_nearest (x : ℚ) (n : Int) : |x - roundHalfEven x| ≤ |x - n| := by
  by_cases hn : n = roundHalfEven x
  · rw [hn]
  have herror := round_half_even_error x
  have hgap : (1 : ℚ) ≤ |(n : ℚ) - roundHalfEven x| := by
    exact_mod_cast Int.one_le_abs (sub_ne_zero.mpr hn)
  have htriangle := abs_sub_le (n : ℚ) x (roundHalfEven x)
  rw [abs_sub_comm (n : ℚ) x] at htriangle
  linarith

/-- Rounding does not pass an integer. -/
theorem round_half_even_le {x : ℚ} {n : Int} (h : x ≤ n) : roundHalfEven x ≤ n := by
  by_contra hlt
  have hcast : (n : ℚ) + 1 ≤ roundHalfEven x := by exact_mod_cast not_le.mp hlt
  have hnear := round_half_even_nearest x n
  rw [abs_of_nonpos (by linarith), abs_of_nonpos (by linarith)] at hnear
  linarith

theorem le_round_half_even {x : ℚ} {n : Int} (h : n ≤ x) : n ≤ roundHalfEven x := by
  by_contra hlt
  have hcast : (roundHalfEven x : ℚ) + 1 ≤ n := by exact_mod_cast not_le.mp hlt
  have hnear := round_half_even_nearest x n
  rw [abs_of_nonneg (by linarith), abs_of_nonneg (by linarith)] at hnear
  linarith

/-- Of two equally near integers it is the even one. -/
theorem round_half_even_tie {x : ℚ} (h : |x - roundHalfEven x| = 1 / 2) :
    roundHalfEven x % 2 = 0 := by
  have hlow := Int.floor_le x
  have hhigh := Int.lt_floor_add_one x
  unfold roundHalfEven at h ⊢
  dsimp only at h ⊢
  split_ifs at h ⊢ with hless hmore heven
  · rw [abs_of_nonneg (by linarith)] at h
    linarith
  · push_cast at h
    rw [abs_of_nonpos (by linarith)] at h
    linarith
  · exact heven
  · omega

/-- The nearest integer is the only one that is near enough. -/
theorem round_half_even_eq {x : ℚ} {n : Int} (h : |x - n| ≤ 1 / 2)
    (heven : |x - n| = 1 / 2 → n % 2 = 0) : roundHalfEven x = n := by
  by_contra hne
  have herror := round_half_even_error x
  have hgap : (1 : ℚ) ≤ |(n : ℚ) - roundHalfEven x| := by
    exact_mod_cast Int.one_le_abs (sub_ne_zero.mpr (Ne.symm hne))
  have htriangle := abs_sub_le (n : ℚ) x (roundHalfEven x)
  rw [abs_sub_comm (n : ℚ) x] at htriangle
  -- both are one half away, on either side, and even
  have hn := heven (by linarith)
  have hround := round_half_even_tie (x := x) (by linarith)
  have hone : |n - roundHalfEven x| = 1 := by
    have hcast : |(n : ℚ) - roundHalfEven x| = 1 := by linarith
    exact_mod_cast hcast
  rcases abs_choice (n - roundHalfEven x) with habs | habs <;> omega

theorem round_half_even_neg (x : ℚ) : roundHalfEven (-x) = -roundHalfEven x := by
  have hdist : |-x - ((-roundHalfEven x : Int) : ℚ)| = |x - roundHalfEven x| := by
    push_cast
    rw [← abs_neg]
    congr 1
    ring
  apply round_half_even_eq
  · exact hdist ▸ round_half_even_error x
  · intro h
    have := round_half_even_tie (hdist ▸ h)
    omega

/-! ## Binary formats -/

/-- A binary floating-point format: how many bits the significand has, and the least exponent. -/
structure Format where
  precision : Nat
  least : Int
  positive : 0 < precision

/-- The numbers of the format: no bound limits the exponent. -/
def Format.Represents (f : Format) (x : ℚ) : Prop :=
  ∃ m e : Int, |m| < 2 ^ f.precision ∧ f.least ≤ e ∧ x = m * 2 ^ e

/-- IEEE 754 double precision, but for the bound on the exponent. -/
def Format.binary64 : Format where
  precision := 53
  least := -1074
  positive := by decide

/-- IEEE 754 single precision, but for the bound on the exponent. -/
def Format.binary32 : Format where
  precision := 24
  least := -149
  positive := by decide

/-- The exponent of the significand that `x` has in the format. -/
def Format.exponent (f : Format) (x : ℚ) : Int :=
  max (Int.log 2 |x| - (f.precision - 1)) f.least

/-- The nearest number of the format, and the one with the even significand of two equally
near. -/
def Format.nearest (f : Format) (x : ℚ) : ℚ :=
  roundHalfEven (x / 2 ^ f.exponent x) * 2 ^ f.exponent x

namespace Format

variable (f : Format)

theorem two_zpow_pos (e : Int) : (0 : ℚ) < 2 ^ e := zpow_pos two_pos e

/-- The significand of `x` fits. -/
theorem abs_lt_exponent (x : ℚ) : |x| < 2 ^ (f.exponent x + f.precision) := by
  have hlog := Int.lt_zpow_succ_log_self one_lt_two |x|
  refine lt_of_lt_of_le (by exact_mod_cast hlog) (zpow_le_zpow_right₀ one_le_two ?_)
  have := le_max_left (Int.log 2 |x| - ((f.precision : Int) - 1)) f.least
  unfold exponent
  omega

/-- Above the least exponent the significand has all its bits. -/
theorem le_abs_exponent {x : ℚ} (hx : x ≠ 0) (h : f.least < f.exponent x) :
    2 ^ (f.exponent x + f.precision - 1) ≤ |x| := by
  have hlog := Int.zpow_log_le_self one_lt_two (abs_pos.mpr hx)
  refine le_trans (zpow_le_zpow_right₀ one_le_two ?_) (by exact_mod_cast hlog)
  unfold exponent at h ⊢
  omega

/-- A number that is a multiple of `2 ^ e` is at least as far from `x` as the nearest one. -/
theorem nearest_le_multiple (x : ℚ) (n : Int) :
    |x - f.nearest x| ≤ |x - n * 2 ^ f.exponent x| := by
  have hpos := two_zpow_pos (f.exponent x)
  have hscale : ∀ m : Int,
      |x - m * 2 ^ f.exponent x| = |x / 2 ^ f.exponent x - m| * 2 ^ f.exponent x := by
    intro m
    rw [← abs_of_pos hpos, ← abs_mul, abs_of_pos hpos, sub_mul, div_mul_cancel₀ _ hpos.ne']
  rw [nearest, hscale, hscale]
  exact mul_le_mul_of_nonneg_right (round_half_even_nearest _ n) hpos.le

/-- A number of the format is a multiple of its last place. -/
theorem Represents.multiple {f : Format} {x : ℚ} (h : f.Represents x) :
    ∃ n : Int, x = n * 2 ^ f.exponent x := by
  obtain ⟨m, e, hm, he, hx⟩ := h
  by_cases hzero : x = 0
  · exact ⟨0, by rw [hzero]; simp⟩
  -- the exponent of `x` is none that is greater than `e`
  have hle : f.exponent x ≤ e := by
    have hlt : |x| < 2 ^ (e + f.precision) := by
      rw [hx, abs_mul, abs_of_pos (two_zpow_pos e), zpow_add₀ two_ne_zero, mul_comm]
      exact mul_lt_mul_of_pos_left (by exact_mod_cast hm) (two_zpow_pos e)
    have hlog := (Int.lt_zpow_iff_log_lt one_lt_two (abs_pos.mpr hzero)).mp
      (by exact_mod_cast hlt)
    exact max_le (by omega) he
  refine ⟨m * 2 ^ (e - f.exponent x).toNat, ?_⟩
  have hsplit : (2 : ℚ) ^ e = 2 ^ (e - f.exponent x).toNat * 2 ^ f.exponent x := by
    rw [← zpow_natCast, ← zpow_add₀ two_ne_zero, Int.toNat_of_nonneg (by omega), sub_add_cancel]
  calc x = m * 2 ^ e := hx
    _ = _ := by
        rw [hsplit]
        push_cast
        ring

/-- The last place of a number that is not small. -/
theorem le_exponent {x : ℚ} {e : Int} (h : 2 ^ (e + f.precision - 1) ≤ |x|) :
    e ≤ f.exponent x := by
  have hpos := lt_of_lt_of_le (two_zpow_pos _) h
  have hlog : e + f.precision - 1 ≤ Int.log 2 |x| :=
    (Int.zpow_le_iff_le_log one_lt_two hpos).mp (by exact_mod_cast h)
  have := le_max_left (Int.log 2 |x| - ((f.precision : Int) - 1)) f.least
  unfold exponent
  omega

/-- Two numbers of the format that are not small are one, or a last place apart. -/
theorem Represents.eq_of_near {f : Format} {x y : ℚ} {e : Int} (hx : f.Represents x)
    (hy : f.Represents y) (hxe : 2 ^ (e + f.precision - 1) ≤ |x|)
    (hye : 2 ^ (e + f.precision - 1) ≤ |y|) (h : |x - y| < 2 ^ e) : x = y := by
  have hmultiple : ∀ z, f.Represents z → 2 ^ (e + f.precision - 1) ≤ |z| →
      ∃ n : Int, z = n * 2 ^ e := by
    intro z hz hze
    obtain ⟨n, hn⟩ := hz.multiple
    have hle := f.le_exponent hze
    refine ⟨n * 2 ^ (f.exponent z - e).toNat, ?_⟩
    push_cast
    rw [← zpow_natCast, Int.toNat_of_nonneg (by omega), mul_assoc, ← zpow_add₀ two_ne_zero,
      sub_add_cancel]
    exact hn
  obtain ⟨m, hm⟩ := hmultiple x hx hxe
  obtain ⟨n, hn⟩ := hmultiple y hy hye
  rw [hm, hn, ← sub_mul, abs_mul, abs_of_pos (two_zpow_pos e),
    mul_lt_iff_lt_one_left (two_zpow_pos e)] at h
  have hless : |m - n| < 1 := by exact_mod_cast h
  rw [hm, hn, sub_eq_zero.mp (Int.abs_lt_one_iff.mp hless)]

/-- The numbers of the format stay as they are. -/
theorem Represents.nearest_self {f : Format} {x : ℚ} (h : f.Represents x) : f.nearest x = x := by
  obtain ⟨n, hn⟩ := h.multiple
  have hdiv : x / 2 ^ f.exponent x = n := by
    rw [div_eq_iff (two_zpow_pos _).ne']
    exact hn
  rw [nearest, hdiv, round_half_even_int]
  exact hn.symm

/-- A significand of one bit more that is a power of two fits with the next exponent. -/
theorem represents_of_le {m e : Int} (hm : |m| ≤ 2 ^ f.precision) (he : f.least ≤ e) :
    f.Represents (m * 2 ^ e) := by
  rcases hm.lt_or_eq with hlt | heq
  · exact ⟨m, e, hlt, he, rfl⟩
  · obtain ⟨p, hp⟩ : ∃ p, f.precision = p + 1 := ⟨f.precision - 1, by have := f.positive; omega⟩
    have hhalf : |m| = 2 * 2 ^ p := by rw [heq, hp, pow_succ, mul_comm]
    have hpow : (0 : Int) < 2 ^ p := by positivity
    refine ⟨m / 2, e + 1, ?_, by omega, ?_⟩
    · rw [hp, pow_succ]
      rcases abs_choice m with habs | habs <;> rw [abs_lt] <;> omega
    · have heven : (m : ℚ) = (m / 2 : Int) * 2 := by
        have : m = m / 2 * 2 := by rcases abs_choice m with habs | habs <;> omega
        exact_mod_cast this
      rw [zpow_add₀ two_ne_zero, zpow_one]
      conv_lhs => rw [heven]
      ring

/-- The nearest number of the format is one. -/
theorem represents_nearest (x : ℚ) : f.Represents (f.nearest x) := by
  apply f.represents_of_le _ (le_max_right _ _)
  have hbound : |x / 2 ^ f.exponent x| ≤ ((2 ^ f.precision : Int) : ℚ) := by
    rw [abs_div, abs_of_pos (two_zpow_pos _), div_le_iff₀ (two_zpow_pos _)]
    refine (f.abs_lt_exponent x).le.trans_eq ?_
    rw [zpow_add₀ two_ne_zero, mul_comm]
    push_cast
    rw [zpow_natCast]
  obtain ⟨hlow, hhigh⟩ := abs_le.mp hbound
  exact abs_le.mpr ⟨le_round_half_even (by exact_mod_cast hlow), round_half_even_le hhigh⟩

/-- Exactly the numbers of the format stay as they are. -/
theorem nearest_eq_self_iff (x : ℚ) : f.nearest x = x ↔ f.Represents x :=
  ⟨fun h => h ▸ f.represents_nearest x, Represents.nearest_self⟩

/-- No number of the format is nearer than the nearest one. -/
theorem nearest_le_dist (x : ℚ) {d : ℚ} (hd : f.Represents d) : |x - f.nearest x| ≤ |x - d| := by
  obtain ⟨m, e, hm, he, hmd⟩ := hd
  by_cases hle : f.exponent x ≤ e
  · -- `d` is a multiple of the last place of `x`
    have hmultiple : d = (m * 2 ^ (e - f.exponent x).toNat : Int) * 2 ^ f.exponent x := by
      push_cast
      rw [hmd, mul_assoc, ← zpow_natCast, ← zpow_add₀ two_ne_zero,
        Int.toNat_of_nonneg (by omega), sub_add_cancel]
    rw [hmultiple]
    exact f.nearest_le_multiple x _
  · -- a power of two that is a multiple of the last place of `x` lies between `d` and `x`
    by_cases hx : x = 0
    · have hzero : roundHalfEven 0 = 0 := round_half_even_int 0
      simp [hx, nearest, hzero]
    have hbelow := f.le_abs_exponent hx (by omega)
    obtain ⟨p, hp⟩ : ∃ p, f.precision = p + 1 := ⟨f.precision - 1, by have := f.positive; omega⟩
    have hpower : (2 : ℚ) ^ (f.exponent x + f.precision - 1) =
        ((2 ^ p : Int) : ℚ) * 2 ^ f.exponent x := by
      have hsum : f.exponent x + f.precision - 1 = p + f.exponent x := by rw [hp]; push_cast; ring
      rw [hsum, zpow_add₀ two_ne_zero, zpow_natCast]
      push_cast
      rfl
    have habove : |d| ≤ 2 ^ (f.exponent x + f.precision - 1) := by
      have hsig : |(m : ℚ)| ≤ 2 ^ (f.precision : Int) := by
        rw [zpow_natCast]
        exact_mod_cast hm.le
      calc |d| = |(m : ℚ)| * 2 ^ e := by rw [hmd, abs_mul, abs_of_pos (two_zpow_pos e)]
        _ ≤ 2 ^ (f.precision : Int) * 2 ^ e := mul_le_mul_of_nonneg_right hsig (two_zpow_pos e).le
        _ = 2 ^ ((f.precision : Int) + e) := (zpow_add₀ two_ne_zero _ _).symm
        _ ≤ _ := zpow_le_zpow_right₀ one_le_two (by omega)
    rw [hpower] at hbelow habove
    obtain ⟨hlow, hhigh⟩ := abs_le.mp habove
    rcases abs_choice x with habs | habs
    · refine (f.nearest_le_multiple x (2 ^ p)).trans ?_
      rw [abs_of_nonneg (by linarith), abs_of_nonneg (by linarith)]
      linarith
    · refine (f.nearest_le_multiple x (-2 ^ p)).trans ?_
      push_cast at *
      rw [abs_of_nonpos (by linarith), abs_of_nonpos (by linarith)]
      linarith

/-- Rounding does not pass a number of the format. -/
theorem nearest_le {x y : ℚ} (hy : f.Represents y) (h : x ≤ y) : f.nearest x ≤ y := by
  by_contra hlt
  have hnear := f.nearest_le_dist x hy
  rw [abs_of_nonpos (by linarith), abs_of_nonpos (by linarith)] at hnear
  linarith

theorem le_nearest {x y : ℚ} (hy : f.Represents y) (h : y ≤ x) : y ≤ f.nearest x := by
  by_contra hlt
  have hnear := f.nearest_le_dist x hy
  rw [abs_of_nonneg (by linarith), abs_of_nonneg (by linarith)] at hnear
  linarith

/-! ## Integers of a format -/

/-- With a least exponent that is not positive, the format has all integers up to the power of two
that its precision gives. -/
theorem represents_int {n : Int} (hleast : f.least ≤ 0) (h : |n| ≤ 2 ^ f.precision) :
    f.Represents n := by
  simpa using f.represents_of_le h hleast

/-- With such an exponent integers are rounded to integers. -/
theorem nearest_int (hleast : f.least ≤ 0) (n : Int) : ∃ r : Int, f.nearest n = r := by
  rcases le_or_gt 0 (f.exponent n) with he | he
  · refine ⟨roundHalfEven (n / 2 ^ f.exponent n) * 2 ^ (f.exponent n).toNat, ?_⟩
    unfold nearest
    push_cast
    rw [← zpow_natCast, Int.toNat_of_nonneg he]
  · -- an integer with a fraction in its significand is small
    have hlt := (f.abs_lt_exponent n).le.trans
      (zpow_le_zpow_right₀ one_le_two (by omega : f.exponent n + f.precision ≤ f.precision))
    rw [zpow_natCast] at hlt
    exact ⟨n, (f.represents_int hleast (by exact_mod_cast hlt)).nearest_self⟩

/-- The integers of a format are those with few enough significant bits. -/
theorem represents_int_iff {n : Int} (hleast : f.least ≤ 0) :
    f.Represents n ↔ ∃ (m : Int) (k : Nat), |m| < 2 ^ f.precision ∧ n = m * 2 ^ k := by
  constructor
  · rintro ⟨m, e, hm, -, hn⟩
    rcases le_or_gt 0 e with he | he
    · refine ⟨m, e.toNat, hm, ?_⟩
      rw [← Int.toNat_of_nonneg he, zpow_natCast] at hn
      exact_mod_cast hn
    · -- a negative exponent only makes the integer smaller than its significand
      refine ⟨n, 0, ?_, by simp⟩
      have hscale : (m : ℚ) = n * 2 ^ (-e).toNat := by
        rw [hn, ← zpow_natCast, Int.toNat_of_nonneg (by omega), mul_assoc,
          ← zpow_add₀ two_ne_zero, add_neg_cancel, zpow_zero, mul_one]
      have hint : m = n * 2 ^ (-e).toNat := by exact_mod_cast hscale
      have hpow : (1 : Int) ≤ 2 ^ (-e).toNat := one_le_pow₀ one_le_two
      refine lt_of_le_of_lt ?_ hm
      rw [hint, abs_mul, abs_of_pos (by omega : (0 : Int) < 2 ^ (-e).toNat)]
      exact le_mul_of_one_le_right (abs_nonneg n) hpow
  · rintro ⟨m, k, hm, hn⟩
    exact ⟨m, k, hm, by omega, by rw [hn, zpow_natCast]; push_cast; rfl⟩

end Format

end BoostRpc.Rounding
