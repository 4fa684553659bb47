import BoostRpc.Json.StringSurvival

/-!
# Relaying values

A party that reads a text and writes what it read passes a value on. The text format rounds every
number to six decimals, and `double_` rounds the numeral again, but `through_text_again` says that
a number which has come through a text once comes through every other text unchanged. So it does
not matter how many parties a value passes, and which form they write: `hops_settle`.
-/

namespace BoostRpc.Json

open Rounding

/-! ## Numbers -/

/-- A number of the format that is near to the rational, if that is not too great. -/
theorem represented_near {r : ℚ} (h : |r| ≤ 2 ^ 33) :
    ∃ z, Format.binary64.Represents z ∧ |r - z| < 1 / 2 / 10 ^ 6 := by
  have hscale : |r * 2 ^ 20| ≤ ((2 ^ 53 : Int) : ℚ) := by
    rw [abs_mul, abs_of_pos (by norm_num : (0 : ℚ) < 2 ^ 20)]
    norm_num at h ⊢
    linarith
  have hround : |roundHalfEven (r * 2 ^ 20)| ≤ 2 ^ 53 := by
    obtain ⟨hlow, hhigh⟩ := abs_le.mp hscale
    refine abs_le.mpr ⟨le_round_half_even ?_, round_half_even_le hhigh⟩
    push_cast at hlow ⊢
    exact hlow
  refine ⟨roundHalfEven (r * 2 ^ 20) * 2 ^ (-20 : Int),
    Format.binary64.represents_of_le hround (by decide), ?_⟩
  have herror := round_half_even_error (r * 2 ^ 20)
  have hunscale : r - roundHalfEven (r * 2 ^ 20) * 2 ^ (-20 : Int) =
      (r * 2 ^ 20 - roundHalfEven (r * 2 ^ 20)) / 2 ^ 20 := by
    rw [zpow_neg]
    norm_num
    ring
  rw [hunscale, abs_div, abs_of_pos (by norm_num : (0 : ℚ) < 2 ^ 20),
    div_lt_iff₀ (by norm_num)]
  norm_num at herror ⊢
  linarith

/-- The `double` nearest to a number of millionths has these six decimals, if it is not too
great. -/
theorem six_decimals_nearest {k : Int} (h : |(k : ℚ) / 10 ^ 6| ≤ 2 ^ 33) :
    sixDecimals (Format.binary64.nearest (k / 10 ^ 6)) = k / 10 ^ 6 := by
  obtain ⟨z, hz, hnear⟩ := represented_near h
  have hdist := (Format.binary64.nearest_le_dist (k / 10 ^ 6) hz).trans_lt hnear
  have hround : roundHalfEven (Format.binary64.nearest (k / 10 ^ 6) * 10 ^ 6) = k := by
    have hscaled : |Format.binary64.nearest (k / 10 ^ 6) * 10 ^ 6 - k| < 1 / 2 := by
      have hunscale : Format.binary64.nearest (k / 10 ^ 6) * 10 ^ 6 - k =
          -(k / 10 ^ 6 - Format.binary64.nearest (k / 10 ^ 6)) * 10 ^ 6 := by ring
      rw [hunscale, abs_mul, abs_neg, abs_of_pos (by norm_num : (0 : ℚ) < 10 ^ 6)]
      rwa [lt_div_iff₀ (by norm_num)] at hdist
    exact round_half_even_eq hscaled.le fun heq => absurd heq hscaled.ne
  rw [sixDecimals, hround]

/-- From `2 ^ 33` on the nearest `double` is not less than that. -/
theorem le_abs_nearest {r : ℚ} (h : 2 ^ 33 ≤ |r|) : 2 ^ 33 ≤ |Format.binary64.nearest r| := by
  have hpower : Format.binary64.Represents (2 ^ 33) := ⟨1, 33, by decide, by decide, by norm_num⟩
  have hpower' : Format.binary64.Represents (-2 ^ 33) :=
    ⟨-1, 33, by decide, by decide, by norm_num⟩
  rcases le_abs.mp h with hpos | hneg
  · exact le_abs.mpr (.inl (Format.binary64.le_nearest hpower hpos))
  · have hle := Format.binary64.nearest_le hpower' (by linarith : r ≤ -2 ^ 33)
    exact le_abs.mpr (.inr (by linarith))

/-- A number that has come through a text comes through the next one unchanged. -/
theorem through_text_again (x : ℚ) : throughText (throughText x) = throughText x := by
  rcases le_or_gt (2 ^ 33) |sixDecimals x| with hgreat | hsmall
  · exact through_text_large (Format.binary64.represents_nearest _) (le_abs_nearest hgreat)
  · have hsix := six_decimals_nearest (k := roundHalfEven (x * 10 ^ 6)) hsmall.le
    rw [throughText, throughText]
    exact congrArg Format.binary64.nearest hsix

/-- What comes through a text is a finite `double` again. -/
theorem finite_through_text {x : ℚ} (h : FiniteDouble x) : FiniteDouble (throughText x) := by
  have hrepresents : Format.binary64.Represents largest :=
    ⟨2 ^ 53 - 1, 971, by decide, by decide, by norm_num [largest]⟩
  have hnegative : Format.binary64.Represents (-largest) :=
    ⟨-(2 ^ 53 - 1), 971, by decide, by decide, by norm_num [largest]⟩
  obtain ⟨hlow, hhigh⟩ := abs_le.mp (six_decimals_largest h.2)
  exact ⟨Format.binary64.represents_nearest _, abs_le.mpr
    ⟨Format.binary64.le_nearest hnegative hlow, Format.binary64.nearest_le hrepresents hhigh⟩⟩

/-! ## Values -/

/-- What a number has become behind a text. -/
def Double.throughText : Double → Double
  | .finite x => .finite (Json.throughText x)
  | x => x

/-- A `double` of the format. -/
def Double.Valid (x : Double) : Prop := ∀ q, x = .finite q → FiniteDouble q

mutual
/-- The value with what its numbers have become behind a text. -/
def reread : Value → Value
  | .number x => .number x.throughText
  | .object keys => .object (rereadKeys keys)
  | .array vals => .array (rereadVals vals)
  | v => v

/-- `reread` for the pairs of an object. -/
def rereadKeys : List (Text × Value) → List (Text × Value)
  | [] => []
  | (key, val) :: keys => (key, reread val) :: rereadKeys keys

/-- `reread` for the elements of an array. -/
def rereadVals : List Value → List Value
  | [] => []
  | val :: vals => reread val :: rereadVals vals
end

mutual
/-- Every string and key in the value survives, and every number is a `double`. -/
def Portable : Value → Prop
  | .number x => x.Valid
  | .string text => survives text = true
  | .object keys => PortableKeys keys
  | .array vals => PortableVals vals
  | _ => True

/-- `Portable` for the pairs of an object. -/
def PortableKeys : List (Text × Value) → Prop
  | [] => True
  | (key, val) :: keys => (survives key = true ∧ Portable val) ∧ PortableKeys keys

/-- `Portable` for the elements of an array. -/
def PortableVals : List Value → Prop
  | [] => True
  | val :: vals => Portable val ∧ PortableVals vals
end

theorem Double.Valid.through_text {x : Double} (h : x.Valid) : x.throughText.Valid := by
  cases x with
  | finite x =>
      intro q hq
      obtain rfl := Double.finite.inj hq
      exact finite_through_text (h x rfl)
  | infinity negative => exact h
  | nan => exact h

theorem Double.through_text_again (x : Double) : x.throughText.throughText = x.throughText := by
  cases x with
  | finite x => exact congrArg Double.finite (Json.through_text_again x)
  | infinity negative => rfl
  | nan => rfl

mutual
theorem Portable.reread {v : Value} (h : Portable v) : Portable (Json.reread v) := by
  match v with
  | .null => trivial
  | .number x => exact Double.Valid.through_text h
  | .bool b => trivial
  | .string text => exact h
  | .object keys => exact PortableKeys.reread h
  | .array vals => exact PortableVals.reread h

theorem PortableKeys.reread {keys : List (Text × Value)} (h : PortableKeys keys) :
    PortableKeys (rereadKeys keys) := by
  match keys with
  | [] => trivial
  | (key, val) :: keys => exact ⟨⟨h.1.1, Portable.reread h.1.2⟩, PortableKeys.reread h.2⟩

theorem PortableVals.reread {vals : List Value} (h : PortableVals vals) :
    PortableVals (rereadVals vals) := by
  match vals with
  | [] => trivial
  | val :: vals => exact ⟨Portable.reread h.1, PortableVals.reread h.2⟩
end

theorem length_reread_keys (keys : List (Text × Value)) :
    (rereadKeys keys).length = keys.length := by
  induction keys with
  | nil => rfl
  | cons entry keys ih => exact congrArg Nat.succ ih

theorem length_reread_vals (vals : List Value) : (rereadVals vals).length = vals.length := by
  induction vals with
  | nil => rfl
  | cons val vals ih => exact congrArg Nat.succ ih

mutual
/-- The vectors have the sizes that they had. -/
theorem counted_reread (v : Value) : counted (reread v) = counted v := by
  match v with
  | .null => rfl
  | .number x => rfl
  | .bool b => rfl
  | .string text => rfl
  | .object keys => rw [reread, counted, counted, length_reread_keys, counted_reread_keys keys]
  | .array vals => rw [reread, counted, counted, length_reread_vals, counted_reread_vals vals]

theorem counted_reread_keys (keys : List (Text × Value)) :
    countedKeys (rereadKeys keys) = countedKeys keys := by
  match keys with
  | [] => rfl
  | (key, val) :: keys =>
      rw [rereadKeys, countedKeys, countedKeys, counted_reread val, counted_reread_keys keys]

theorem counted_reread_vals (vals : List Value) :
    countedVals (rereadVals vals) = countedVals vals := by
  match vals with
  | [] => rfl
  | val :: vals =>
      rw [rereadVals, countedVals, countedVals, counted_reread val, counted_reread_vals vals]
end

mutual
/-- Behind the first text nothing changes any more. -/
theorem reread_again (v : Value) : reread (reread v) = reread v := by
  match v with
  | .null => rfl
  | .number x => exact congrArg Value.number x.through_text_again
  | .bool b => rfl
  | .string text => rfl
  | .object keys => exact congrArg Value.object (reread_keys_again keys)
  | .array vals => exact congrArg Value.array (reread_vals_again vals)

theorem reread_keys_again (keys : List (Text × Value)) :
    rereadKeys (rereadKeys keys) = rereadKeys keys := by
  match keys with
  | [] => rfl
  | (key, val) :: keys =>
      simp only [rereadKeys, reread_again val, reread_keys_again keys]

theorem reread_vals_again (vals : List Value) : rereadVals (rereadVals vals) = rereadVals vals := by
  match vals with
  | [] => rfl
  | val :: vals => simp only [rereadVals, reread_again val, reread_vals_again vals]
end

mutual
/-- Only the numbers change. -/
theorem same_reread (v : Value) : SameStrings v (reread v) := by
  match v with
  | .null => trivial
  | .number x => trivial
  | .bool b => rfl
  | .string text => rfl
  | .object keys => exact same_reread_keys keys
  | .array vals => exact same_reread_vals vals

theorem same_reread_keys (keys : List (Text × Value)) : SameKeys keys (rereadKeys keys) := by
  match keys with
  | [] => trivial
  | (key, val) :: keys => exact ⟨⟨rfl, same_reread val⟩, same_reread_keys keys⟩

theorem same_reread_vals (vals : List Value) : SameVals vals (rereadVals vals) := by
  match vals with
  | [] => trivial
  | val :: vals => exact ⟨same_reread val, same_reread_vals vals⟩
end

/-! ## One party -/

/-- A string that survives stands for itself. -/
theorem unescapes_self {text : Text} (h : survives text = true) : Unescapes text text := by
  induction text with
  | nil => exact .nil
  | cons c text ih =>
      obtain ⟨hascii, hquote, hback, hrest⟩ := (survives_cons c text).mp h
      exact .char c text text hascii hquote hback (ih hrest)

variable [Platform]

theorem Double.Valid.reprinted (hnumerals : NearestNumerals) {x : Double} (h : x.Valid) :
    x.reprinted = x.throughText := by
  cases x with
  | finite x => exact hnumerals _ (six_decimals_largest (h x rfl).2)
  | infinity negative => rfl
  | nan => rfl

mutual
/-- What is read of what was written. -/
theorem reprinted_reread (hnumerals : NearestNumerals) {v : Value} (h : Portable v) :
    Reprinted v (reread v) := by
  match v with
  | .null => exact .null
  | .number x =>
      rw [reread, ← Double.Valid.reprinted hnumerals h]
      exact .number x
  | .bool b => exact .bool b
  | .string text => exact .string text text (unescapes_self h)
  | .object keys => exact .object keys _ (reprinted_reread_keys hnumerals h)
  | .array vals => exact .array vals _ (reprinted_reread_vals hnumerals h)

theorem reprinted_reread_keys (hnumerals : NearestNumerals) {keys : Object}
    (h : PortableKeys keys) : ReprintedKeys keys (rereadKeys keys) := by
  match keys with
  | [] => exact .nil
  | (key, val) :: keys =>
      exact .cons key key val _ keys _ (unescapes_self h.1.1) (reprinted_reread hnumerals h.1.2)
        (reprinted_reread_keys hnumerals h.2)

theorem reprinted_reread_vals (hnumerals : NearestNumerals) {vals : List Value}
    (h : PortableVals vals) : ReprintedVals vals (rereadVals vals) := by
  match vals with
  | [] => exact .nil
  | val :: vals =>
      exact .cons val _ vals _ (reprinted_reread hnumerals h.1)
        (reprinted_reread_vals hnumerals h.2)
end

/-- A party writes the value, and the next one reads it. -/
def hop (v : Value) (pretty : Bool) : Option Value := do
  let text ← write v pretty
  (read text).toOption

/-- What a value has become behind some parties, each with the form that it writes. -/
def hops (v : Value) (forms : List Bool) : Option Value := forms.foldlM hop v

theorem hop_reread (hnumerals : NearestNumerals) {v : Value} (hportable : Portable v)
    (hcount : counted v = true) (pretty : Bool) : hop v pretty = some (reread v) := by
  obtain ⟨text, hwrite⟩ := (write_returns_iff v pretty).mpr hcount
  rw [hop, hwrite, Option.bind_eq_bind, Option.bind_some,
    read_reprinted (reprinted_reread hnumerals hportable) hwrite]
  rfl

/-- Behind the first party the value stays as it is. -/
theorem hops_reread (hnumerals : NearestNumerals) {v : Value} (hportable : Portable v)
    (hcount : counted v = true) (forms : List Bool) : hops (reread v) forms = some (reread v) := by
  induction forms with
  | nil => rfl
  | cons pretty forms ih =>
      have hfirst := hop_reread hnumerals hportable.reread ((counted_reread v).trans hcount) pretty
      rw [reread_again] at hfirst
      rw [hops, List.foldlM_cons, hfirst]
      exact ih

/-- However many parties a value passes, and whichever forms they write, the same value arrives,
with the strings and keys of the first one and with its numbers a millionth away at most. -/
theorem hops_settle (hnumerals : NearestNumerals) {v : Value} (hportable : Portable v)
    (hcount : counted v = true) :
    ∃ w, SameStrings v w ∧
      (∀ path x, v.place path = some (.number (.finite x)) → FiniteDouble x →
        ∃ y, w.place path = some (.number (.finite y)) ∧ |x - y| ≤ 1 / 10 ^ 6) ∧
      ∀ pretty forms, hops v (pretty :: forms) = some w := by
  refine ⟨reread v, same_reread v, fun path x hplace hx => ?_, fun pretty forms => ?_⟩
  · obtain ⟨other, hother, hnumber⟩ := (reprinted_reread hnumerals hportable).at_place hplace
    cases hnumber
    rw [Double.reprinted, hnumerals _ (six_decimals_largest hx.2)] at hother
    exact ⟨throughText x, hother, through_text_error hx.1⟩
  · rw [hops, List.foldlM_cons, hop_reread hnumerals hportable hcount]
    exact hops_reread hnumerals hportable hcount forms

omit [Platform] in
/-- A number of seven decimals behind any number of parties. -/
theorem hops_settle_small :
    ∃ w y, SameStrings (.object [(str "a", .number (.finite (1 / 2 ^ 21)))]) w ∧
      w.place [0] = some (.number (.finite y)) ∧ |1 / 2 ^ 21 - y| ≤ 1 / 10 ^ 6 ∧
      ∀ pretty forms, @hops .nearest (.object [(str "a", .number (.finite (1 / 2 ^ 21)))])
        (pretty :: forms) = some w := by
  have hfinite : FiniteDouble (1 / 2 ^ 21) :=
    ⟨⟨1, -21, by decide, by decide, by norm_num⟩, le_largest (by norm_num [abs_le])⟩
  have hportable : Portable (.object [(str "a", .number (.finite (1 / 2 ^ 21)))]) := by
    refine ⟨⟨by decide, ?_⟩, trivial⟩
    intro q hq
    exact Double.finite.inj hq ▸ hfinite
  obtain ⟨w, hsame, hnear, hall⟩ := @hops_settle .nearest (fun _ _ => rfl) _ hportable (by decide)
  obtain ⟨y, hplace, hdist⟩ := hnear [0] (1 / 2 ^ 21) rfl hfinite
  exact ⟨w, y, hsame, hplace, hdist, hall⟩

end BoostRpc.Json
