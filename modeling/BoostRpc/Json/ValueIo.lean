import BoostRpc.Json.Value

/-!
# Packing into JSON values

`json::pack` and `json::unpack` of `value_io.hpp` for one type are a `JsonCodec`. The codec of
`error_object` is written out: the visitor of a reflected struct makes an object with a member
for every field that is set, and reads back the members that it finds.
-/

namespace BoostRpc.Json

/-- `json::pack` and `json::unpack` for one type. -/
structure JsonCodec (α : Type) where
  /-- `pack` gets the value in the slot that it writes to. -/
  pack : Value → α → Except Exception Value
  /-- `unpack` into a default-constructed object. -/
  unpack : Value → Except Exception α

/-- What is packed into the slot can be unpacked from it again. -/
def JsonCodec.RoundTrips {α : Type} (codec : JsonCodec α) (slot : Value) : Prop :=
  ∀ x, ∃ v, codec.pack slot x = .ok v ∧ codec.unpack v = .ok x

/-- The codec of `bool`. -/
def boolCodec : JsonCodec Bool where
  pack _ b := .ok (.bool b)
  unpack
    | .bool b => .ok b
    | _ => .error (.thrown .badGet)

/-- The codec of the fusion sequence without elements. -/
def emptySequenceCodec : JsonCodec Unit where
  pack _ _ := .ok (.array [])
  unpack
    | .array _ => .ok ()
    | _ => .error (.thrown .badGet)

/-- The codec of the fusion sequence with one `bool`. -/
def boolSequenceCodec : JsonCodec Bool where
  pack _ b := .ok (.array [.bool b])
  unpack
    -- without elements the target keeps the value of its construction
    | .array [] => .ok false
    | .array (.bool b :: _) => .ok b
    | _ => .error (.thrown .badGet)

theorem bool_round_trips (slot : Value) : boolCodec.RoundTrips slot := fun b => ⟨.bool b, rfl, rfl⟩

theorem empty_sequence_round_trips (slot : Value) : emptySequenceCodec.RoundTrips slot :=
  fun _ => ⟨.array [], rfl, rfl⟩

theorem bool_sequence_round_trips (slot : Value) : boolSequenceCodec.RoundTrips slot :=
  fun b => ⟨.array [.bool b], rfl, rfl⟩

/-- `pack_helper` with an optional string: an unset one makes no member. -/
def packOptional (obj : Object) (name : Text) : Option Text → Object
  | some text => obj.assign name (.string text)
  | none => obj

/-- `pack` of an `error_object`. -/
def packError (e : ErrorObject) : Except Exception Value := do
  let code ← match e.code with
    | some code => .ok (Value.int code)
    | none => .error (.thrown .requiredFieldNotSet)
  let obj := Object.assign [] (str "code") code
  let obj := packOptional obj (str "message") e.message
  let obj := packOptional obj (str "data") e.data
  return .object obj

/-- The member of a visited object, where the object has it, or what the field held before. -/
def unpackMember {α : Type} (obj : Object) (name : Text) (unpack : Value → Except Failure α)
    (field : Option α) : Except Failure (Option α) :=
  if obj.contains name then do
    let v ← raised (obj.at name)
    let x ← unpack v
    return some x
  else .ok field

/-- `unpack` into an `error_object`. -/
def unpackError (v : Value) (e : ErrorObject) : Except Failure ErrorObject := do
  let obj ← raised v.toObject
  let code ← unpackMember obj (str "code") Value.toInt e.code
  let message ← unpackMember obj (str "message") (fun v => raised v.getString) e.message
  let data ← unpackMember obj (str "data") (fun v => raised v.getString) e.data
  return ⟨code, message, data⟩

theorem unpack_member_some {α : Type} {obj : Object} {name : Text}
    {unpack : Value → Except Failure α} {field : Option α} {v : Value} {x : α}
    (hfind : obj.find? name = some v) (hv : unpack v = .ok x) :
    unpackMember obj name unpack field = .ok (some x) := by
  simp [unpackMember, Object.contains, Object.at, raised, hfind, hv, bind, Except.bind, pure,
    Except.pure]

theorem unpack_member_none {α : Type} {obj : Object} {name : Text}
    {unpack : Value → Except Failure α} {field : Option α} (hfind : obj.find? name = none) :
    unpackMember obj name unpack field = .ok field := by
  simp [unpackMember, Object.contains, hfind]

/-- Only the member that is found matters. -/
theorem unpack_member_congr {α : Type} {obj other : Object} {name : Text}
    (h : obj.find? name = other.find? name) (unpack : Value → Except Failure α)
    (field : Option α) :
    unpackMember obj name unpack field = unpackMember other name unpack field := by
  unfold unpackMember Object.contains Object.at
  rw [h]

/-- An optional member is found where it is set. -/
theorem find_pack_optional (obj : Object) (name : Text) (field : Option Text) :
    (packOptional obj name field).find? name =
      match field with
      | some text => some (.string text)
      | none => obj.find? name := by
  cases field with
  | some text => exact Object.find_assign_same obj name _
  | none => rfl

theorem find_pack_optional_other {obj : Object} {name other : Text} {field : Option Text}
    (h : other ≠ name) : (packOptional obj name field).find? other = obj.find? other := by
  cases field with
  | some text => exact Object.find_assign_other h
  | none => rfl

/-- An optional member of a default-constructed error object is read back. -/
theorem unpack_pack_optional {obj : Object} {name : Text} (hnew : obj.find? name = none)
    (field : Option Text) :
    unpackMember (packOptional obj name field) name (fun v => raised v.getString) none =
      .ok field := by
  have hfind := find_pack_optional obj name field
  cases field with
  | some text => exact unpack_member_some hfind rfl
  | none => exact unpack_member_none (hfind.trans hnew)

/-- The members of an error object are read back from what was packed. -/
theorem unpack_pack_error {code : Int} (hcode : InInt code)
    (message data : Option Text) :
    ∃ v, packError ⟨some code, message, data⟩ = .ok v ∧
      unpackError v (.new 0) = .ok ⟨some code, message, data⟩ := by
  refine ⟨_, rfl, ?_⟩
  have hint : Value.toInt (.int code) = .ok code := by
    rw [Value.int, Value.toInt, Double.to_int_of_range hcode]
  generalize hfirst : Object.assign [] (str "code") (Value.int code) = first
  have code_message : str "code" ≠ str "message" := by decide
  have code_data : str "code" ≠ str "data" := by decide
  have message_data : str "message" ≠ str "data" := by decide
  have first_code : first.find? (str "code") = some (.int code) := by
    rw [← hfirst, Object.find_assign_same]
  have first_other : ∀ name, name ≠ str "code" → first.find? name = none := fun name h => by
    rw [← hfirst, Object.find_assign_other h]
    rfl
  have hmessage := unpack_pack_optional (first_other _ code_message.symm) message
  have hdata : (packOptional first (str "message") message).find? (str "data") = none := by
    rw [find_pack_optional_other message_data.symm, first_other _ code_data.symm]
  generalize hsecond : packOptional first (str "message") message = second at hmessage hdata
  have second_code : second.find? (str "code") = some (.int code) := by
    rw [← hsecond, find_pack_optional_other code_message, first_code]
  have third_code : (packOptional second (str "data") data).find? (str "code") =
      some (.int code) := by
    rw [find_pack_optional_other code_data, second_code]
  have third_other : (packOptional second (str "data") data).find? (str "message") =
      second.find? (str "message") := find_pack_optional_other message_data
  have third_message := unpack_member_congr third_other (fun v => raised v.getString) none
  show unpackError (.object (packOptional second (str "data") data)) (.new 0) = _
  simp only [unpackError, Value.toObject, raised_ok, ErrorObject.new, bind, Except.bind, pure,
    Except.pure, unpack_member_some third_code hint, third_message, hmessage,
    unpack_pack_optional hdata]

end BoostRpc.Json
