import BoostRpc.Json.Decimals

/-!
# Reading what was written

A value of plain strings and multiples of a millionth is what its texts are read as
(`reprinted_self`), where `qi::double_` is exact on such numbers. So `read` undoes `write` in
either form.
-/

namespace BoostRpc.Json

/-- `qi::double_` is exact on numerals of millionths. -/
def ExactNumerals [Platform] : Prop :=
  ∀ k : Int, Platform.ofNumeral (k / 10 ^ 6) = .finite (k / 10 ^ 6)

/-- A plain string stands for itself. -/
theorem unescapes_plain {text : Text} (h : PlainText text) : Unescapes text text := by
  induction text with
  | nil => exact .nil
  | cons c text ih =>
      obtain ⟨hascii, hquote, hback⟩ := h c List.mem_cons_self
      exact .plain hascii hquote hback (ih fun d hd => h d (List.mem_cons_of_mem c hd))

variable [Platform]

mutual
/-- A plain value is read as it was written. -/
theorem reprinted_self (hexact : ExactNumerals) {v : Value} (h : Plain v) : Reprinted v v := by
  match v with
  | .null => exact .null
  | .number x =>
      obtain ⟨k, rfl⟩ := h
      have hnumber : Double.reprinted (.finite (k / 10 ^ 6)) = .finite (k / 10 ^ 6) := by
        rw [Double.reprinted, six_decimals_micros, hexact k]
      have hself := Reprinted.number (.finite ((k : ℚ) / 10 ^ 6))
      rwa [hnumber] at hself
  | .bool b => exact .bool b
  | .string text => exact .string text text (unescapes_plain h)
  | .object keys => exact .object keys keys (reprinted_self_keys hexact h)
  | .array vals => exact .array vals vals (reprinted_self_vals hexact h)

theorem reprinted_self_keys (hexact : ExactNumerals) {keys : Object} (h : PlainKeys keys) :
    ReprintedKeys keys keys := by
  match keys with
  | [] => exact .nil
  | (key, val) :: keys =>
      exact .cons key key val val keys keys (unescapes_plain h.1) (reprinted_self hexact h.2.1)
        (reprinted_self_keys hexact h.2.2)

theorem reprinted_self_vals (hexact : ExactNumerals) {vals : List Value} (h : PlainVals vals) :
    ReprintedVals vals vals := by
  match vals with
  | [] => exact .nil
  | val :: vals =>
      exact .cons val val vals vals (reprinted_self hexact h.1) (reprinted_self_vals hexact h.2)
end

/-- What was written is read back. -/
theorem read_written (hexact : ExactNumerals) {v : Value} (hv : Plain v) {pretty : Bool}
    {text : Text} (hwrite : write v pretty = some text) : read text = .ok v :=
  read_reprinted (reprinted_self hexact hv) hwrite

/-- Writing a value and reading the text gives the value back, in either form. -/
theorem read_write (hexact : ExactNumerals) {v : Value} (hv : Plain v) (hcount : counted v = true)
    (pretty : Bool) : ∃ text, write v pretty = some text ∧ read text = .ok v := by
  obtain ⟨text, hwrite⟩ := (write_returns_iff v pretty).mpr hcount
  exact ⟨text, hwrite, read_written hexact hv hwrite⟩

omit [Platform] in
/-- A nested value through the indented form, where `double_` is exact on every numeral. -/
theorem read_write_indented :
    ∃ text, write (.object [(str "k", .array [.int 1, .null])]) true = some text ∧
      @read (.exact false) text = .ok (.object [(str "k", .array [.int 1, .null])]) := by
  have hone : Micros (.finite (1 : Int)) := ⟨10 ^ 6, by norm_num⟩
  have hkey : PlainText (str "k") := by
    intro c hc
    obtain rfl : c = ch 'k' := by simpa [str] using hc
    decide
  have hplain : Plain (.object [(str "k", .array [.int 1, .null])]) := by
    simp only [Plain, PlainKeys, PlainVals, Value.int]
    exact ⟨hkey, ⟨hone, trivial, trivial⟩, trivial⟩
  exact @read_write (.exact false) (fun k => rfl) _ hplain rfl true

omit [Platform] in
/-- The loop over an array of `2 ^ 32` elements never ends. -/
theorem write_long_array :
    ¬ ∀ v : Value, Plain v → ∀ pretty, ∃ text, write v pretty = some text ∧
      @read (.exact false) text = .ok v := by
  intro h
  have plain_nulls : ∀ n, PlainVals (List.replicate n .null) := by
    intro n
    induction n with
    | zero => exact trivial
    | succ n ih => exact ⟨trivial, ih⟩
  obtain ⟨text, hwrite, -⟩ := h (.array (List.replicate (2 ^ 32) .null)) (plain_nulls _) false
  have hcount := (write_returns_iff _ _).mp ⟨text, hwrite⟩
  simp only [counted, List.length_replicate, Bool.and_eq_true, decide_eq_true_eq] at hcount
  exact absurd hcount.1 (Nat.lt_irrefl _)

end BoostRpc.Json
