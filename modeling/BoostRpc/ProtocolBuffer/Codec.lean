import BoostRpc.Raw.Codec
import BoostRpc.Raw.Streams

/-!
# The protocol-buffer codec

`protocol_buffer::pack` and `protocol_buffer::unpack` of reflected messages. The overloads recurse
over the C++ type of a field, which `Field` and `Element` stand for; `Message` is a reflected type
with the fields that its reflector visits, which are numbered from zero. The stream operators of
`unsigned_int` and `signed_int` are not among those of the datastream: they are `Varints`.
-/

namespace BoostRpc.ProtocolBuffer

open Raw

/-! ## Wire types -/

/-- `protocol_buf_wire_types` -/
inductive WireType where
  | varint
  | bit64
  | lengthDelimited
  | bit8
  | bit16
  | bit32
  | bit0
  deriving DecidableEq

def WireType.value : WireType → UInt32
  | .varint => 0
  | .bit64 => 1
  | .lengthDelimited => 2
  | .bit8 => 3
  | .bit16 => 4
  | .bit32 => 5
  | .bit0 => 6

/-- `get_wire_type` of a fundamental type of this size. -/
def getWireType (size : UInt32) : WireType :=
  if size = 1 then .bit8
  else if size = 2 then .bit16
  else if size = 4 then .bit32
  else if size = 8 then .bit64
  else .lengthDelimited

/-! ## Types -/

/-- A fundamental type of 1, 2, 4 or 8 bytes, which is copied by `memcpy`. -/
structure Fundamental (α : Type) where
  size : UInt32
  sized : size = 1 ∨ size = 2 ∨ size = 4 ∨ size = 8
  toBytes : α → List.Vector Byte size.toNat
  ofBytes : List.Vector Byte size.toNat → α
  of_to : ∀ x, ofBytes (toBytes x) = x

/-- The values of some fields in a row. -/
@[reducible] def Values : List Type → Type
  | [] => Unit
  | α :: ts => α × Values ts

mutual
/-- The types that a field has one or more values of. -/
inductive Element : Type → Type 1 where
  | fundamental {α : Type} (t : Fundamental α) : Element α
  | unsignedInt : Element UInt32
  | signedInt : Element Int32
  /-- `std::string` -/
  | string : Element Text
  | message {S : Type} (m : Message S) : Element S

/-- The types of fields. -/
inductive Field : Type → Type 1 where
  | plain {α : Type} (t : Element α) : Field α
  | optional {α : Type} (t : Element α) : Field (Option α)
  | required {α : Type} (t : Element α) : Field (Option α)
  /-- `std::vector` and `std::list` -/
  | container {α : Type} (t : Element α) : Field (List α)

/-- The fields of a message, with their names. -/
inductive Fields : List Type → Type 1 where
  | nil : Fields []
  | cons {α : Type} {ts : List Type} (name : Text) (f : Field α) (fs : Fields ts) : Fields (α :: ts)

/-- A reflected type, which `members` takes apart. Its fields can be numbered by keys. -/
inductive Message : Type → Type 1 where
  | reflect {S : Type} {ts : List Type} (few : ts.length ≤ 2 ^ 29) (fields : Fields ts)
      (members : S ≃ Values ts) : Message S
end

/-! ## Failures -/

/-- The exceptions that the codec throws, with the name of the field. -/
inductive Thrown where
  | requiredFieldNotSet
  | keyTypeMismatch (name : Text)
  | fieldSizeLargerThanBuffer (name : Text)
  | fieldNotFound
  deriving DecidableEq

def Thrown.what : Thrown → Text
  | .requiredFieldNotSet => str "required field not set"
  | .keyTypeMismatch _ => str "key/type mismatch"
  | .fieldSizeLargerThanBuffer _ => str "field size is larger than buffer"
  | .fieldNotFound => str "field not found"

/-- How a call does not come back. -/
inductive Failure where
  | threw (e : Thrown)
  | fault (fault : Fault)
  deriving DecidableEq

/-- The stream operators of `unsigned_int` and `signed_int`, which are codecs: the bytes that `<<`
puts into a stream, and what `>>` takes off one. -/
structure Varints where
  unsigned : UInt32 → Text
  signed : Int32 → Text
  getUnsigned : Reader UInt32
  getSigned : Reader Int32
  reads_unsigned : ∀ n, Reads getUnsigned (unsigned n) n
  reads_signed : ∀ n, Reads getSigned (signed n) n

/-! ## Packing -/

/-- `os << unsigned_int( n )` -/
def putUnsigned (io : Varints) {σ : Type} [OutStream σ] (s : σ) (n : UInt32) : σ :=
  (io.unsigned n).foldl OutStream.put s

/-- `os << signed_int( n )` -/
def putSigned (io : Varints) {σ : Type} [OutStream σ] (s : σ) (n : Int32) : σ :=
  (io.signed n).foldl OutStream.put s

/-- `uint32_t(key) << 3 | type` -/
def tag (key : UInt32) (type : WireType) : UInt32 := key <<< 3 ||| type.value

/-- `pack_message_visitor::pack` of a `std::string`. -/
def packString (io : Varints) {σ : Type} [OutStream σ] (s : σ) (value : Text) : σ :=
  let size := UInt32.ofNat value.length
  let s := putUnsigned io s size
  OutStream.write s (value.take size.toNat)

mutual
/-- `pack_message_visitor::pack_field` -/
def packField (io : Varints) : {α : Type} → Element α → {σ : Type} → [OutStream σ] → σ → UInt32 →
    α → Except Failure σ
  | _, .fundamental t, _, _, s, key, value =>
      let s := putUnsigned io s (tag key (getWireType t.size))
      .ok (OutStream.write s (t.toBytes value).toList)
  | _, .unsignedInt, _, _, s, key, value =>
      let s := putUnsigned io s (tag key .varint)
      .ok (putUnsigned io s value)
  | _, .signedInt, _, _, s, key, value =>
      let s := putUnsigned io s (tag key .varint)
      .ok (putSigned io s value)
  | _, .string, _, _, s, key, value =>
      let s := putUnsigned io s (tag key .lengthDelimited)
      .ok (packString io s value)
  | _, .message m, _, _, s, key, value => do
      let s := putUnsigned io s (tag key .lengthDelimited)
      -- `packsize( value )`
      let ps ← packMessage io m (⟨0⟩ : SizeStream) value
      let s := putUnsigned io s ps.size
      packMessage io m s value

/-- `pack_message_visitor::accept_member` -/
def packMember (io : Varints) : {α : Type} → Field α → {σ : Type} → [OutStream σ] → σ → UInt32 →
    α → Except Failure σ
  | _, .plain t, _, _, s, key, value => packField io t s key value
  | _, .optional _, _, _, s, _, none => .ok s
  | _, .optional t, _, _, s, key, some value => packField io t s key value
  | _, .required _, _, _, _, _, none => .error (.threw .requiredFieldNotSet)
  | _, .required t, _, _, s, key, some value => packField io t s key value
  | _, .container t, _, _, s, key, values =>
      values.foldlM (fun s value => packField io t s key value) s

/-- `reflector::visit` of all fields from a number on. -/
def packFields (io : Varints) : {ts : List Type} → Fields ts → Nat → {σ : Type} → [OutStream σ] →
    σ → Values ts → Except Failure σ
  | _, .nil, _, _, _, s, _ => .ok s
  | _, .cons _ f fs, i, _, _, s, (value, values) => do
      let s ← packMember io f s (UInt32.ofNat i) value
      packFields io fs (i + 1) s values

/-- `pack_message_visitor::pack` -/
def packMessage (io : Varints) : {S : Type} → Message S → {σ : Type} → [OutStream σ] → σ → S →
    Except Failure σ
  | _, .reflect _ fields members, _, _, s, value => packFields io fields 0 s (members value)
end

/-- `protocol_buffer::packsize` -/
def packsize (io : Varints) {S : Type} (m : Message S) (v : S) : Except Failure UInt32 := do
  let ps ← packMessage io m (⟨0⟩ : SizeStream) v
  return ps.size

/-- `protocol_buffer::pack` into a `std::vector<char>`: what it holds afterwards. It evaluates
`msg.front()`, which is undefined for the empty vector of a message without bytes; that it does no
harm there, since nothing is written, is taken from the platform. -/
def pack (io : Varints) {S : Type} (m : Message S) (msg : Text) (v : S) : Text × Option Failure :=
  match packsize io m v with
  | .error e => (msg, some e)
  | .ok size =>
      let msg := resize size.toNat 0 msg
      match packMessage io m (Except.ok (Datastream.new msg) : BufferStream) v with
      -- the pass for the size would have thrown
      | .error e => (msg, some e)
      | .ok (.error fault) => (msg, some (.fault fault))
      | .ok (.ok ds) => (ds.data, none)

/-! ## Default-constructed values -/

mutual
/-- A default-constructed value; `fill` is the byte that the memory of scalars holds before. -/
def construct (fill : Byte) : {α : Type} → Element α → α
  | _, .fundamental t => t.ofBytes (List.Vector.replicate _ fill)
  | _, .unsignedInt => 0
  | _, .signedInt => 0
  | _, .string => []
  | _, .message m => constructMessage fill m

/-- A default-constructed member. -/
def constructMember (fill : Byte) : {α : Type} → Field α → α
  | _, .plain t => construct fill t
  | _, .optional _ => none
  | _, .required _ => none
  | _, .container _ => []

/-- The default-constructed members of a message. -/
def constructFields (fill : Byte) : {ts : List Type} → Fields ts → Values ts
  | _, .nil => ()
  | _, .cons _ f fs => (constructMember fill f, constructFields fill fs)

/-- A default-constructed message. -/
def constructMessage (fill : Byte) : {S : Type} → Message S → S
  | _, .reflect _ fields members => members.symm (constructFields fill fields)
end

/-! ## Unpacking -/

/-- Code that reads from a `datastream<const char*>`. -/
abbrev Unpack : Type → Type := StateT Datastream (Except Failure)

/-- A stream operator. -/
def extract {β : Type} (reader : Reader β) : Unpack β := fun s =>
  match reader s with
  | .ok p => .ok p
  | .error fault => .error (.fault fault)

/-- `datastream::remaining` -/
def remaining : Unpack UInt32 := fun s => .ok (UInt32.ofInt s.left, s)

/-- `datastream::valid` -/
def valid : Unpack Bool := fun s => .ok (decide (s.pos ≤ s.data.length), s)

/-- `datastream::skip` -/
def skip (n : UInt32) : Unpack Unit := fun s => .ok ((), s.skip n.toNat)

/-- The next bytes, in front of which the stream stays. No bytes can be taken from behind the end as
well. -/
def peek (size : UInt32) : Unpack Text := fun s =>
  if size = 0 ∨ s.pos + size.toNat ≤ s.data.length then
    .ok ((s.data.drop s.pos).take size.toNat, s)
  else .error (.fault .outOfBounds)

/-- Reads from `datastream is2( is.pos(), size )`. -/
def nested {β : Type} (size : UInt32) (body : Unpack β) : Unpack β := do
  let data ← peek size
  match body (.new data) with
  | .ok (x, _) => return x
  | .error e => throw e

/-- The test at the beginning of the functions of `unpack_field_visitor` -/
def checkKey (name : Text) (key field type : UInt32) (expected : WireType) : Unpack Unit :=
  if key ≠ field ∨ type ≠ expected.value then throw (.threw (.keyTypeMismatch name)) else return ()

/-- `unpack_message_selector::unpack_message`, whose loop takes a byte at least in every turn. With
the value it returns whether it read everything. -/
def unpackLoop (io : Varints) {β : Type} (unpackField : UInt32 → UInt32 → β → Unpack (β × Bool)) :
    Nat → β → Unpack (β × Bool)
  | 0, _ => throw (.fault .endless)
  | fuel + 1, val => do
      let left ← remaining
      if left = 0 then return (val, true)
      let tkey ← extract io.getUnsigned
      if !(← valid) then return (val, false)
      let (val, error) ← unpackField (tkey >>> 3) (tkey &&& 7) val
      if error then return (val, false)
      unpackLoop io unpackField fuel val

/-- A bound on the turns of the loop. -/
def turns : Unpack Nat := fun s => .ok (s.rest.length + 2, s)

/-- `unpack_field_visitor` on a `std::string` of a field: the string, where it is there. -/
def unpackChars (io : Varints) : Unpack (Option Text) := do
  let size ← extract io.getUnsigned
  if size ≤ (← remaining) then
    let str ← peek size
    skip size
    return some str
  else return none

/-- `unpack_field_visitor` on a nested message: the message as far as it has been read, whether all
of it has, and the member `error`. -/
def unpackSized (io : Varints) {β : Type} (name : Text) (body : Unpack (β × Bool)) :
    Unpack (β × Bool × Bool) := do
  let size ← extract io.getUnsigned
  if size ≤ (← remaining) then
    let (value, read) ← nested size body
    if !read then return (value, false, true)
    skip size
    return (value, true, !(← valid))
  else throw (.threw (.fieldSizeLargerThanBuffer name))

mutual
/-- `unpack_field_visitor::unpack` into a target that holds a value: what it holds afterwards, and
the member `error`. -/
def unpackElement (io : Varints) : {α : Type} → Element α → Text → UInt32 → UInt32 → UInt32 → α →
    Unpack (α × Bool)
  | _, .fundamental t, name, key, field, type, value => do
      checkKey name key field type (getWireType t.size)
      let (_, bytes) ← extract (Datastream.read t.size (t.toBytes value))
      return (t.ofBytes bytes, !(← valid))
  | _, .unsignedInt, name, key, field, type, _ => do
      checkKey name key field type .varint
      return (← extract io.getUnsigned, false)
  | _, .signedInt, name, key, field, type, _ => do
      checkKey name key field type .varint
      return (← extract io.getSigned, false)
  | _, .string, name, key, field, type, value => do
      checkKey name key field type .lengthDelimited
      match ← unpackChars io with
      | some str => return (str, false)
      | none => return (value, true)
  | _, .message m, name, key, field, type, value => do
      checkKey name key field type .lengthDelimited
      let (value, _, error) ← unpackSized io name (unpackMessage io m value)
      return (value, error)

/-- `unpack_field_visitor::accept_member` of a container, which adds one element. -/
def unpackBack (io : Varints) : {α : Type} → Element α → Text → UInt32 → UInt32 → UInt32 → List α →
    Unpack (List α × Bool)
  | _, .string, name, key, field, type, values => do
      checkKey name key field type .lengthDelimited
      match ← unpackChars io with
      | some str => return (values ++ [str], false)
      | none => return (values, true)
  | _, .message m, name, key, field, type, values => do
      checkKey name key field type .lengthDelimited
      let (value, read, error) ← unpackSized io name (unpackMessage io m (constructMessage 0 m))
      -- the new element is taken away again where it has not been read
      return (if read then values ++ [value] else values, error)
  | _, .fundamental _, name, key, field, type, _ => do
      checkKey name key field type .lengthDelimited
      -- there is no `reflector` of the element type
      throw (.fault .illFormed)
  | _, .unsignedInt, name, key, field, type, _ => do
      checkKey name key field type .lengthDelimited
      throw (.fault .illFormed)
  | _, .signedInt, name, key, field, type, _ => do
      checkKey name key field type .lengthDelimited
      throw (.fault .illFormed)

/-- `unpack_field_visitor::accept_member` -/
def unpackMember (io : Varints) : {α : Type} → Field α → Text → UInt32 → UInt32 → UInt32 → α →
    Unpack (α × Bool)
  | _, .plain t, name, key, field, type, value => unpackElement io t name key field type value
  | _, .optional t, name, key, field, type, value => do
      let (value, error) ← unpackElement io t name key field type (value.getD (construct 0 t))
      return (some value, error)
  | _, .required t, name, key, field, type, value => do
      let (value, error) ← unpackElement io t name key field type (value.getD (construct 0 t))
      return (some value, error)
  | _, .container t, name, key, field, type, values => unpackBack io t name key field type values

/-- `reflector::visit` of the field with this key, where the fields that are left begin at a
number. -/
def unpackFields (io : Varints) : {ts : List Type} → Fields ts → Nat → UInt32 → UInt32 →
    Values ts → Unpack (Values ts × Bool)
  | _, .nil, _, _, _, _ => throw (.threw .fieldNotFound)
  | _, .cons name f fs, i, field, type, (value, values) =>
      if field = UInt32.ofNat i then do
        let (value, error) ← unpackMember io f name (UInt32.ofNat i) field type value
        return ((value, values), error)
      else do
        let (values, error) ← unpackFields io fs (i + 1) field type values
        return ((value, values), error)

/-- `unpack_message_visitor` of a reflected type. -/
def unpackMessage (io : Varints) : {S : Type} → Message S → S → Unpack (S × Bool)
  | _, .reflect _ fields members, value => do
      let fuel ← turns
      let (values, read) ← unpackLoop io
        (fun field type values => unpackFields io fields 0 field type values) fuel (members value)
      return (members.symm values, read)
end

/-- `protocol_buffer::unpack` from a `std::vector<char>`, with the result of
`unpack_message_visitor`, which it drops. -/
def unpack (io : Varints) {S : Type} (m : Message S) (msg : Text) (v : S) :
    Except Failure (S × Bool) :=
  if msg.length = 0 then .ok (v, true)
  else
    match unpackMessage io m v (.new (msg.take (UInt32.ofNat msg.length).toNat)) with
    | .ok (result, _) => .ok result
    | .error e => .error e

/-- What the datastream over an array of this many bytes sees of it: its constructor takes the size
as a `uint32_t`. -/
def seen (msg : Text) : Text := msg.take (UInt32.ofNat msg.length).toNat

/-- `protocol_buffer::unpack` from a `const char*` and a size: what the target holds afterwards. The
result of `unpack_message_visitor` is dropped. -/
def unpackArray (io : Varints) {S : Type} (m : Message S) (msg : Text) (v : S) : Except Failure S :=
  match unpackMessage io m v (.new (seen msg)) with
  | .ok ((value, _), _) => .ok value
  | .error e => .error e

end BoostRpc.ProtocolBuffer
