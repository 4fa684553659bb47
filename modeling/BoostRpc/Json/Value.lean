import BoostRpc.Errors
import Mathlib.Data.Rat.Floor

/-!
# JSON values

`json::value` is a variant of null, number, boolean, string, object and array. An object is a
vector of key-value pairs: `Object.assign` keeps the first entry of a key and appends a new one,
`Object.find?` finds the first.
-/

namespace BoostRpc.Json

/-- A `double`. A finite one is the rational number it denotes, so that there is one zero. -/
inductive Double where
  | finite (x : ℚ)
  | infinity (negative : Bool)
  | nan
  deriving DecidableEq

/-- What the values and texts get from code outside the repository, and a choice that the language
leaves to the compiler. -/
class Platform where
  /-- The `double` that `qi::double_` makes of the decimal numeral with this value. -/
  ofNumeral : ℚ → Double
  /-- What `std::ostream` prints for a `double` in its default format. -/
  printGeneral : Double → Text
  /-- Whether the last argument of a call is evaluated before the first. -/
  lastArgumentFirst : Bool

/-- A platform whose numerals are exact and whose default format prints integers, as the default
format does up to six digits. -/
@[reducible] def Platform.exact (lastArgumentFirst : Bool) : Platform where
  ofNumeral := .finite
  printGeneral
    | .finite x => if x < 0 then ch '-' :: decimal ⌊x⌋.natAbs else decimal ⌊x⌋.natAbs
    | .infinity negative => if negative then str "-inf" else str "inf"
    | .nan => str "nan"
  lastArgumentFirst

/-- Truncation towards zero. -/
def truncate (x : ℚ) : Int := if 0 ≤ x then ⌊x⌋ else ⌈x⌉

/-- The conversion of a `double` to an integer type with this range, which is undefined outside of
it. -/
def Double.toInteger (least most : Int) : Double → Option Int
  | .finite x => if least ≤ truncate x ∧ truncate x ≤ most then some (truncate x) else none
  | _ => none

/-- The number is in the range of `int`. -/
def InInt (n : Int) : Prop := -(2 ^ 31) ≤ n ∧ n < 2 ^ 31

instance (n : Int) : Decidable (InInt n) := inferInstanceAs (Decidable (_ ∧ _))

/-- The conversion of a `double` to `int`. -/
def Double.toInt (x : Double) : Option Int := x.toInteger (-(2 ^ 31)) (2 ^ 31 - 1)

/-- How a function of the library fails to give a result. -/
inductive Failure where
  | threw (e : Exception)
  /-- A loop that does not come to an end. -/
  | endless
  /-- Undefined behaviour of the language. -/
  | undefined
  deriving DecidableEq

/-- A result, or what was thrown. -/
def raised {α : Type} : Except Exception α → Except Failure α
  | .ok x => .ok x
  | .error e => .error (.threw e)

theorem raised_ok {α : Type} (x : α) : raised (.ok x) = .ok x := rfl

/-- `json::value`. -/
inductive Value where
  | null
  | number (x : Double)
  | bool (b : Bool)
  | string (text : Text)
  | object (keys : List (Text × Value))
  | array (vals : List Value)

/-- `json::object`: its vector of key-value pairs. -/
abbrev Object := List (Text × Value)

instance : Inhabited Value := ⟨.null⟩

/-- The value of an integer. -/
def Value.int (n : Int) : Value := .number (.finite n)

/-! ## Objects -/

/-- The value of the first entry with this key. -/
def Object.find? : Object → Text → Option Value
  | [], _ => none
  | (k, v) :: keys, key => if k = key then some v else Object.find? keys key

/-- `object::contains`. -/
def Object.contains (o : Object) (key : Text) : Bool := (o.find? key).isSome

/-- `object::operator[] const`. -/
def Object.at (o : Object) (key : Text) : Except Exception Value :=
  match o.find? key with
  | some v => .ok v
  | none => .error (.thrown (.outOfRange (str "unknown key '" ++ key ++ str "'")))

/-- Assignment to `object::operator[]`, which appends an entry for a new key. -/
def Object.assign : Object → Text → Value → Object
  | [], key, x => [(key, x)]
  | (k, v) :: keys, key, x => if k = key then (k, x) :: keys else (k, v) :: Object.assign keys key x

/-- `object::operator[]` as an argument: the entry exists afterwards, with a null value where
there was none. -/
def Object.touch (o : Object) (key : Text) : Object :=
  o.assign key ((o.find? key).getD .null)

@[simp] theorem Object.find_assign_same (o : Object) (key : Text) (x : Value) :
    (o.assign key x).find? key = some x := by
  induction o with
  | nil => simp [Object.assign, Object.find?]
  | cons entry keys ih =>
      obtain ⟨k, v⟩ := entry
      by_cases hk : k = key
      · simp [Object.assign, Object.find?, hk]
      · simpa [Object.assign, Object.find?, hk] using ih

@[simp] theorem Object.find_assign_other {o : Object} {key other : Text} {x : Value}
    (h : other ≠ key) : (o.assign key x).find? other = o.find? other := by
  induction o with
  | nil => simp [Object.assign, Object.find?, Ne.symm h]
  | cons entry keys ih =>
      obtain ⟨k, v⟩ := entry
      by_cases hk : k = key
      · subst hk
        simp [Object.assign, Object.find?, Ne.symm h]
      · simp only [Object.assign, hk, if_false, Object.find?, ih]

/-- Assignment to a new key appends its entry. -/
theorem Object.assign_new {o : Object} {key : Text} (h : o.find? key = none) (x : Value) :
    o.assign key x = o ++ [(key, x)] := by
  induction o with
  | nil => rfl
  | cons entry keys ih =>
      obtain ⟨k, v⟩ := entry
      by_cases hk : k = key
      · simp [Object.find?, hk] at h
      · simp only [Object.find?, hk, if_false] at h
        simp only [Object.assign, hk, if_false, ih h, List.cons_append]

/-! ## Access to values -/

/-- `operator const object&`: `boost::get<object>`. -/
def Value.toObject : Value → Except Exception Object
  | .object keys => .ok keys
  | _ => .error (.thrown .badGet)

/-- `value::contains`. -/
def Value.contains (v : Value) (key : Text) : Except Exception Bool := do
  let obj ← v.toObject
  return obj.contains key

/-- `value::operator[] const` with a string. On an array `lexical_cast<int>` of the key throws:
no key in the source is a numeral. -/
def Value.at : Value → Text → Except Exception Value
  | .object keys, key => Object.at keys key
  | .array _, _ => .error (.thrown .badLexicalCast)
  | _, _ => .error (.thrown (.outOfRange (str "not an object or array")))

/-- Assignment to `value::operator[]` with a string, which makes an object of a null value. -/
def Value.assign : Value → Text → Value → Except Exception Value
  | .null, key, x => .ok (.object (Object.assign [] key x))
  | .object keys, key, x => .ok (.object (Object.assign keys key x))
  | .array _, _, _ => .error (.thrown .badLexicalCast)
  | _, _, _ => .error (.thrown (.outOfRange (str "not an object or array")))

/-- `operator int`: `boost::get<double>`, converted. -/
def Value.toInt : Value → Except Failure Int
  | .number x =>
      match x.toInt with
      | some n => .ok n
      | none => .error .undefined
  | _ => .error (.threw (.thrown .badGet))

/-- `operator std::string`: what the value's variant prints to a stream. -/
def Value.toStdString [Platform] : Value → Text
  | .string text => text
  | .number x => Platform.printGeneral x
  | .bool b => if b then str "1" else str "0"
  | _ => []

/-- `operator const std::string&`: `boost::get<std::string>`. -/
def Value.getString : Value → Except Exception Text
  | .string text => .ok text
  | _ => .error (.thrown .badGet)

/-- What is assigned to a member is read from it. -/
theorem Value.at_assign {v x w : Value} {key : Text} (h : v.assign key x = .ok w) :
    w.at key = .ok x := by
  cases v with
  | null | object =>
      obtain rfl := Except.ok.inj h
      simp only [Value.at, Object.at, Object.find_assign_same]
  | number | bool | string | array => exact absurd h nofun

/-- Truncation leaves an integer alone. -/
theorem truncate_int (n : Int) : truncate n = n := by
  simp [truncate]

/-- The conversion of an integer. -/
theorem Double.to_integer_int (least most n : Int) :
    (Double.finite n).toInteger least most = if least ≤ n ∧ n ≤ most then some n else none := by
  simp only [Double.toInteger, truncate_int]

/-- An integer in the range of `int` converts to itself. -/
theorem Double.to_int_of_range {n : Int} (h : InInt n) : (Double.finite n).toInt = some n := by
  rw [Double.toInt, Double.to_integer_int, if_pos ⟨h.1, Int.le_sub_one_of_lt h.2⟩]

/-- What an integer converts to is the integer. -/
theorem Double.int_of_to_int {n m : Int} (h : (Double.finite n).toInt = some m) : n = m := by
  rw [Double.toInt, Double.to_integer_int] at h
  split at h
  · exact Option.some.inj h
  · cases h

end BoostRpc.Json
