import BoostRpc.Json.Value
import BoostRpc.Rounding
import Mathlib.Tactic.Ring
import Mathlib.Tactic.NormNum

/-!
# The JSON writers

The compact and the indented printer of `value.cpp`, and the texts they stand for: `Renders v t`
says that `t` is the value `v` in JSON notation, with any white space around the elements of
arrays and the members of objects. `renders_print` and `renders_pretty` show that both printers
write such texts.

The loops of the source count the elements of a vector with a `uint32_t`. A vector of `2 ^ 32`
elements makes the counter start over before it reaches the size, and the loop never ends: `write`
has a text only where every vector in the value is shorter (`counted`). The `int` depth of the
indented printer is a number without a bound here; it decides on nothing but a number of blanks.
-/

namespace BoostRpc.Json

open Rounding

/-- The text of a number of millionths: the whole part, a point and six digits. -/
def microText (micros : Nat) : Text :=
  decimal (micros / 10 ^ 6) ++ ch '.' :: paddedDigits 6 (micros % 10 ^ 6)

/-- What `std::ostream` prints for a `double` with the flag `fixed` and the default precision. The
negative zero, which it prints with a sign, is taken as zero. -/
def fixedText : Double → Text
  | .finite x =>
      if x < 0 then ch '-' :: microText (roundHalfEven (-x * 10 ^ 6)).toNat
      else microText (roundHalfEven (x * 10 ^ 6)).toNat
  | .infinity negative => if negative then str "-inf" else str "inf"
  | .nan => str "nan"

/-- A string or key between quotes: nothing in it is escaped. -/
def quoted (text : Text) : Text := ch '"' :: (text ++ [ch '"'])

mutual
/-- `json_value_printer` -/
def jsonValuePrinter : Value → Text
  | .string text => quoted text
  | .bool b => if b then str "true" else str "false"
  | .number x => fixedText x
  | .null => str "null"
  | .object keys => ch '{' :: (printKeys keys ++ [ch '}'])
  | .array vals => ch '[' :: (printVals vals ++ [ch ']'])

/-- The loop over the pairs of an object. -/
def printKeys : List (Text × Value) → Text
  | [] => []
  | (key, val) :: keys =>
      quoted key ++ ch ':' :: (jsonValuePrinter val ++
        ((if keys.isEmpty then [] else [ch ',']) ++ printKeys keys))

/-- The loop over the elements of an array. -/
def printVals : List Value → Text
  | [] => []
  | val :: vals =>
      jsonValuePrinter val ++ ((if vals.isEmpty then [] else [ch ',']) ++ printVals vals)
end

/-- `std::setw` in front of an output: it is filled up with blanks on the left. -/
def setw (width : Nat) (text : Text) : Text := List.replicate (width - text.length) 32 ++ text

mutual
/-- `json_value_pretty_printer`, with its member `depth`. This is an `int` there, and `depth * 4` is
undefined from 2^29 levels on, each of which takes a frame of the stack; it has no bound here. -/
def jsonValuePrettyPrinter (depth : Nat) : Value → Text
  | .string text => quoted text
  | .bool b => if b then str "true" else str "false"
  | .number x => fixedText x
  | .null => str "null"
  | .object [] => str "{}"
  | .object (entry :: keys) =>
      ch '{' :: 10 :: (prettyKeys depth (entry :: keys) ++ setw (depth * 4 - 4) [ch '}'])
  | .array [] => str "[]"
  | .array (val :: vals) =>
      ch '[' :: 10 :: (prettyVals depth (val :: vals) ++ setw (depth * 4 - 4) [ch ']'])

/-- The loop over the pairs of an object. -/
def prettyKeys (depth : Nat) : List (Text × Value) → Text
  | [] => []
  | (key, val) :: keys =>
      setw (depth * 4) [ch '"'] ++ (key ++ [ch '"']) ++
        ch ':' :: (jsonValuePrettyPrinter (depth + 1) val ++
          ((if keys.isEmpty then [] else [ch ',']) ++ 10 :: prettyKeys depth keys))

/-- The loop over the elements of an array. -/
def prettyVals (depth : Nat) : List Value → Text
  | [] => []
  | val :: vals =>
      setw (depth * 4) [32] ++ (jsonValuePrettyPrinter (depth + 1) val ++
        ((if vals.isEmpty then [] else [ch ',']) ++ 10 :: prettyVals depth vals))
end

mutual
/-- The counters of the loops over the vectors in the value reach the sizes of the vectors. -/
def counted : Value → Bool
  | .object keys => decide (keys.length < 2 ^ 32) && countedKeys keys
  | .array vals => decide (vals.length < 2 ^ 32) && countedVals vals
  | _ => true

/-- `counted` for the values of an object. -/
def countedKeys : List (Text × Value) → Bool
  | [] => true
  | (_, val) :: keys => counted val && countedKeys keys

/-- `counted` for the elements of an array. -/
def countedVals : List Value → Bool
  | [] => true
  | val :: vals => counted val && countedVals vals
end

/-- `json::write` into an empty string stream; `none` where it never returns. -/
def write (v : Value) (pretty : Bool) : Option Text :=
  -- both printers visit every vector in the value
  if counted v then some (if pretty then jsonValuePrettyPrinter 1 v else jsonValuePrinter v)
  else none

/-! ## Texts of a value -/

/-- ASCII without quotes and backslashes. -/
def PlainText (text : Text) : Prop :=
  ∀ c ∈ text, isAscii c = true ∧ c ≠ ch '"' ∧ c ≠ ch '\\'

/-- The number is an integer multiple of a millionth. -/
def Micros (x : Double) : Prop := ∃ k : Int, x = .finite (k / 10 ^ 6)

mutual
/-- Every string and key is plain and every number a multiple of a millionth. -/
def Plain : Value → Prop
  | .null => True
  | .number x => Micros x
  | .bool _ => True
  | .string text => PlainText text
  | .object keys => PlainKeys keys
  | .array vals => PlainVals vals

/-- `Plain` for the pairs of an object. -/
def PlainKeys : List (Text × Value) → Prop
  | [] => True
  | (key, val) :: keys => PlainText key ∧ Plain val ∧ PlainKeys keys

/-- `Plain` for the elements of an array. -/
def PlainVals : List Value → Prop
  | [] => True
  | val :: vals => Plain val ∧ PlainVals vals
end

/-- White space only. -/
def Spaces (text : Text) : Prop := ∀ c ∈ text, isSpace c = true

/-- The numeral of a number of millionths. -/
def microNumeral (k : Int) : Text :=
  if k < 0 then ch '-' :: microText k.natAbs else microText k.natAbs

mutual
/-- `Renders v t` says that `t` is `v` in JSON notation. -/
inductive Renders : Value → Text → Prop where
  | null : Renders .null (str "null")
  | number (k : Int) : Renders (.number (.finite (k / 10 ^ 6))) (microNumeral k)
  | bool (b : Bool) : Renders (.bool b) (if b then str "true" else str "false")
  | string (text : Text) : PlainText text → Renders (.string text) (quoted text)
  | emptyObject : Renders (.object []) (str "{}")
  | object (keys : Object) (body : Text) :
      RendersKeys keys body → Renders (.object keys) (ch '{' :: (body ++ [ch '}']))
  | emptyArray : Renders (.array []) (str "[]")
  | array (vals : List Value) (body : Text) :
      RendersVals vals body → Renders (.array vals) (ch '[' :: (body ++ [ch ']']))

/-- `RendersKeys keys t` says that `t` is the pairs `keys`, at least one, between commas. -/
inductive RendersKeys : Object → Text → Prop where
  | last (key : Text) (val : Value) (before text after : Text) :
      Spaces before → PlainText key → Renders val text → Spaces after →
      RendersKeys [(key, val)] (before ++ (quoted key ++ ch ':' :: (text ++ after)))
  | cons (key : Text) (val : Value) (keys : Object) (before text body : Text) :
      Spaces before → PlainText key → Renders val text → RendersKeys keys body →
      RendersKeys ((key, val) :: keys)
        (before ++ (quoted key ++ ch ':' :: (text ++ ch ',' :: body)))

/-- `RendersVals vals t` says that `t` is the elements `vals`, at least one, between commas. -/
inductive RendersVals : List Value → Text → Prop where
  | last (val : Value) (before text after : Text) :
      Spaces before → Renders val text → Spaces after →
      RendersVals [val] (before ++ (text ++ after))
  | cons (val : Value) (vals : List Value) (before text body : Text) :
      Spaces before → Renders val text → RendersVals vals body →
      RendersVals (val :: vals) (before ++ (text ++ ch ',' :: body))
end

theorem Spaces.nil : Spaces [] := fun _ hc => absurd hc List.not_mem_nil

theorem Spaces.append {first second : Text} (h : Spaces first) (h' : Spaces second) :
    Spaces (first ++ second) := fun c hc => (List.mem_append.mp hc).elim (h c) (h' c)

theorem Spaces.cons {c : Byte} {text : Text} (hc : isSpace c = true) (h : Spaces text) :
    Spaces (c :: text) := fun d hd => (List.mem_cons.mp hd).elim (fun he => he ▸ hc) (h d)

theorem spaces_replicate (n : Nat) : Spaces (List.replicate n 32) := fun c hc => by
  rw [List.eq_of_mem_replicate hc]
  rfl

/-- White space may be added in front of the pairs. -/
theorem RendersKeys.prepend {keys : Object} {body space : Text} (hs : Spaces space)
    (h : RendersKeys keys body) : RendersKeys keys (space ++ body) := by
  cases h with
  | last key val before text after hb hk hv ha =>
      rw [← List.append_assoc]
      exact .last key val _ text after (hs.append hb) hk hv ha
  | cons key val keys before text body hb hk hv hkeys =>
      rw [← List.append_assoc]
      exact .cons key val keys _ text body (hs.append hb) hk hv hkeys

/-- White space may be added in front of the elements. -/
theorem RendersVals.prepend {vals : List Value} {body space : Text} (hs : Spaces space)
    (h : RendersVals vals body) : RendersVals vals (space ++ body) := by
  cases h with
  | last val before text after hb hv ha =>
      rw [← List.append_assoc]
      exact .last val _ text after (hs.append hb) hv ha
  | cons val vals before text body hb hv hvals =>
      rw [← List.append_assoc]
      exact .cons val vals _ text body (hs.append hb) hv hvals

/-- White space may be added behind the pairs. -/
theorem RendersKeys.trail {keys : Object} {body space : Text} (hs : Spaces space)
    (h : RendersKeys keys body) : RendersKeys keys (body ++ space) := by
  match h with
  | .last key val before text after hb hk hv ha =>
      simpa using RendersKeys.last key val before text (after ++ space) hb hk hv (ha.append hs)
  | .cons key val keys before text body hb hk hv hkeys =>
      simpa using RendersKeys.cons key val keys before text (body ++ space) hb hk hv
        (hkeys.trail hs)

/-- White space may be added behind the elements. -/
theorem RendersVals.trail {vals : List Value} {body space : Text} (hs : Spaces space)
    (h : RendersVals vals body) : RendersVals vals (body ++ space) := by
  match h with
  | .last val before text after hb hv ha =>
      simpa using RendersVals.last val before text (after ++ space) hb hv (ha.append hs)
  | .cons val vals before text body hb hv hvals =>
      simpa using RendersVals.cons val vals before text (body ++ space) hb hv (hvals.trail hs)

/-! ## The printers write texts of the value -/

/-- A multiple of a millionth is printed exactly. -/
theorem fixed_text_micros (k : Int) : fixedText (.finite (k / 10 ^ 6)) = microNumeral k := by
  have hsign : ((k : ℚ) / 10 ^ 6 < 0) ↔ k < 0 := by
    rw [div_lt_iff₀ (by norm_num), zero_mul]
    exact Int.cast_lt_zero
  have hnegative : -((k : ℚ) / 10 ^ 6) * 10 ^ 6 = ((-k : Int) : ℚ) := by
    push_cast
    ring
  have hpositive : (k : ℚ) / 10 ^ 6 * 10 ^ 6 = k := by ring
  by_cases hk : k < 0
  · rw [fixedText, if_pos (hsign.mpr hk), microNumeral, if_pos hk, hnegative, round_half_even_int]
    congr 2
    omega
  · rw [fixedText, if_neg (fun h => hk (hsign.mp h)), microNumeral, if_neg hk, hpositive,
      round_half_even_int]
    congr 1
    omega

mutual
/-- The compact printer writes a text of the value. -/
theorem renders_print {v : Value} (h : Plain v) : Renders v (jsonValuePrinter v) := by
  cases v with
  | null => exact .null
  | number x =>
      obtain ⟨k, rfl⟩ := h
      rw [jsonValuePrinter, fixed_text_micros]
      exact .number k
  | bool b => exact .bool b
  | string text => exact .string text h
  | object keys =>
      cases keys with
      | nil => exact .emptyObject
      | cons entry keys => exact .object _ _ (renders_print_keys (by simp) h)
  | array vals =>
      cases vals with
      | nil => exact .emptyArray
      | cons val vals => exact .array _ _ (renders_print_vals (by simp) h)

/-- The loop over the pairs writes a text of them. -/
theorem renders_print_keys {keys : Object} (hne : keys ≠ []) (h : PlainKeys keys) :
    RendersKeys keys (printKeys keys) := by
  match keys with
  | [] => exact absurd rfl hne
  | [(key, val)] =>
      simpa [printKeys] using
        RendersKeys.last key val [] _ [] .nil h.1 (renders_print h.2.1) .nil
  | (key, val) :: next :: keys =>
      simpa [printKeys] using
        RendersKeys.cons key val (next :: keys) [] _ _ .nil h.1 (renders_print h.2.1)
          (renders_print_keys (by simp) h.2.2)

/-- The loop over the elements writes a text of them. -/
theorem renders_print_vals {vals : List Value} (hne : vals ≠ []) (h : PlainVals vals) :
    RendersVals vals (printVals vals) := by
  match vals with
  | [] => exact absurd rfl hne
  | [val] =>
      simpa [printVals] using RendersVals.last val [] _ [] .nil (renders_print h.1) .nil
  | val :: next :: vals =>
      simpa [printVals] using
        RendersVals.cons val (next :: vals) [] _ _ .nil (renders_print h.1)
          (renders_print_vals (by simp) h.2)
end

theorem spaces_newline : Spaces [10] := .cons (by decide) .nil

/-- A padded character is white space and the character. -/
theorem setw_singleton (width : Nat) (c : Byte) :
    setw width [c] = List.replicate (width - 1) 32 ++ [c] := rfl

mutual
/-- The indented printer writes a text of the value, at every depth. -/
theorem renders_pretty {v : Value} (depth : Nat) (h : Plain v) :
    Renders v (jsonValuePrettyPrinter depth v) := by
  match v with
  | .null => exact .null
  | .number x =>
      obtain ⟨k, rfl⟩ := h
      rw [jsonValuePrettyPrinter, fixed_text_micros]
      exact .number k
  | .bool b => exact .bool b
  | .string text => exact .string text h
  | .object [] => exact .emptyObject
  | .object (entry :: keys) =>
      have hbody : RendersKeys (entry :: keys) (prettyKeys depth (entry :: keys)) :=
        renders_pretty_keys depth (by simp) h
      have hspaced := (hbody.trail (spaces_replicate (depth * 4 - 4 - 1))).prepend spaces_newline
      simpa [jsonValuePrettyPrinter, setw_singleton] using Renders.object _ _ hspaced
  | .array [] => exact .emptyArray
  | .array (val :: vals) =>
      have hbody : RendersVals (val :: vals) (prettyVals depth (val :: vals)) :=
        renders_pretty_vals depth (by simp) h
      have hspaced := (hbody.trail (spaces_replicate (depth * 4 - 4 - 1))).prepend spaces_newline
      simpa [jsonValuePrettyPrinter, setw_singleton] using Renders.array _ _ hspaced

/-- The loop over the pairs writes a text of them. -/
theorem renders_pretty_keys {keys : Object} (depth : Nat) (hne : keys ≠ []) (h : PlainKeys keys) :
    RendersKeys keys (prettyKeys depth keys) := by
  have hpad := spaces_replicate (depth * 4 - 1)
  match keys with
  | [] => exact absurd rfl hne
  | [(key, val)] =>
      have hval := renders_pretty (depth + 1) h.2.1
      simpa [prettyKeys, setw_singleton, quoted] using
        RendersKeys.last key val _ _ _ hpad h.1 hval spaces_newline
  | (key, val) :: next :: keys =>
      have hval := renders_pretty (depth + 1) h.2.1
      have hrest : RendersKeys (next :: keys) (prettyKeys depth (next :: keys)) :=
        renders_pretty_keys depth (by simp) h.2.2
      simpa [prettyKeys, setw_singleton, quoted] using
        RendersKeys.cons key val (next :: keys) _ _ _ hpad h.1 hval (hrest.prepend spaces_newline)

/-- The loop over the elements writes a text of them. -/
theorem renders_pretty_vals {vals : List Value} (depth : Nat) (hne : vals ≠ [])
    (h : PlainVals vals) : RendersVals vals (prettyVals depth vals) := by
  have hpad : Spaces (setw (depth * 4) [32]) := by
    rw [setw_singleton]
    exact (spaces_replicate _).append (.cons (by decide) .nil)
  match vals with
  | [] => exact absurd rfl hne
  | [val] =>
      have hval := renders_pretty (depth + 1) h.1
      simpa [prettyVals] using RendersVals.last val _ _ _ hpad hval spaces_newline
  | val :: next :: vals =>
      have hval := renders_pretty (depth + 1) h.1
      have hrest : RendersVals (next :: vals) (prettyVals depth (next :: vals)) :=
        renders_pretty_vals depth (by simp) h.2
      simpa [prettyVals] using
        RendersVals.cons val (next :: vals) _ _ _ hpad hval (hrest.prepend spaces_newline)
end

/-- Both forms of `write` are texts of the value. -/
theorem renders_write {v : Value} (h : Plain v) {pretty : Bool} {text : Text}
    (hwrite : write v pretty = some text) : Renders v text := by
  unfold write at hwrite
  split at hwrite
  · obtain rfl := Option.some.inj hwrite
    cases pretty
    · exact renders_print h
    · exact renders_pretty 1 h
  · exact absurd hwrite (by simp)

/-- `write` returns where every vector in the value is short enough for the counters. -/
theorem write_returns_iff (v : Value) (pretty : Bool) :
    (∃ text, write v pretty = some text) ↔ counted v = true := by
  simp [write]

end BoostRpc.Json
