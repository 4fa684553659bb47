import BoostRpc.Json.Blobs
import BoostRpc.Json.WideIntegers

/-!
# All that the JSON codec packs

`JsonType` has the types that come back from `json::pack`. `Packable` has every type that there is
an overload of `json::pack` for: also `boost::optional` at any position, `std::list`, `std::set`,
`std::vector<char>`, `float` and the integers of 64 bits.
-/

namespace BoostRpc.Json

open Ordered Raw Rounding

/-! ## Types -/

/-- A `float`: a `double` whose number the format of 32 bits has. -/
abbrev Single := { x : Double // ∀ q, x = .finite q → Format.binary32.Represents q }

/-- The conversion of a `double` to `float`. -/
def Double.toSingle : Double → Single
  | .finite q => ⟨.finite (Format.binary32.nearest q), fun _ h => by
      cases h
      exact Format.represents_nearest _ q⟩
  | .infinity negative => ⟨.infinity negative, fun _ h => by cases h⟩
  | .nan => ⟨.nan, fun _ h => by cases h⟩

/-- The C++ types that have overloads which ask for no other type. -/
inductive Atomic : Type → Type 1 where
  /-- `json::value` -/
  | value : Atomic Value
  | bool : Atomic Bool
  | float : Atomic Single
  | double : Atomic Double
  | integer {α : Type} (i : Integer α) (exact : i.Exact) : Atomic α
  | signedInt : Atomic Int32
  | unsignedInt : Atomic UInt32
  /-- `std::string` -/
  | string : Atomic Text
  /-- `std::vector<char>` -/
  | chars : Atomic Text

mutual
/-- The C++ types that `json::pack` is instantiated with. -/
inductive Packable : Type → Type 1 where
  | atomic {α : Type} (p : Atomic α) : Packable α
  | optional {α : Type} (t : Packable α) : Packable (Option α)
  | required {α : Type} (t : Packable α) : Packable (Option α)
  /-- `std::vector` of any type but `char`. -/
  | vector {α : Type} (t : Packable α) : Packable (List α)
  | list {α : Type} (t : Packable α) : Packable (List α)
  | set {α : Type} (less : Compare α) (t : Packable α) : Packable (OrderedSet less)
  /-- `std::map` with keys of type `std::string`. -/
  | stringMap {ν : Type} (t : Packable ν) : Packable (OrderedMap lessString ν)
  /-- `std::map` with keys of any other type. -/
  | map {κ ν : Type} (less : Compare κ) (k : Packable κ) (t : Packable ν) :
      Packable (OrderedMap less ν)
  | pair {α β : Type} (t : Packable α) (u : Packable β) : Packable (α × β)
  /-- A fusion sequence. -/
  | sequence {α : Type} (ts : Parts α) : Packable α
  /-- A reflected struct, which `members` takes apart. -/
  | struct {S α : Type} {names : List Text} (ts : Fields names α) (members : S ≃ α) : Packable S

/-- The element types of a fusion sequence. -/
inductive Parts : Type → Type 1 where
  | nil : Parts Unit
  | cons {α β : Type} (t : Packable α) (ts : Parts β) : Parts (α × β)

/-- The members of a reflected struct, with their names. -/
inductive Fields : List Text → Type → Type 1 where
  | nil : Fields [] Unit
  | cons {names : List Text} {α β : Type} (name : Text) (fresh : name ∉ names) (t : Packable α)
      (ts : Fields names β) : Fields (name :: names) (α × β)
end

/-- A `boost::optional` that is not set. -/
def Packable.unset : {α : Type} → Packable α → α → Bool
  | _, .optional _, none => true
  | _, _, _ => false

/-! ## Packing -/

/-- `json::pack` into a slot, for a type of its own overload. -/
def Atomic.pack : {α : Type} → Atomic α → Value → α → Value
  | _, .value, _, v => v
  | _, .bool, _, v => .bool v
  | _, .float, _, v => .number v.val
  | _, .double, _, v => .number v
  | _, .integer i _, slot, v => packInteger i slot v
  | _, .signedInt, slot, v => packInteger .int32 slot v
  | _, .unsignedInt, slot, v => packInteger .uint32 slot v
  | _, .string, _, v => .string v
  | _, .chars, slot, v => packBlob slot v

/-- `pack_helper` of the `pack_object_visitor`: the overload for `boost::optional` packs `*v`, if it
is set, as the general one packs `v`. -/
def packHelper (unset : Bool) (obj : Object) (name : Text) (item : Value → Except Failure Value) :
    Except Failure Object :=
  if unset then return obj else packMember obj name item

mutual
/-- `json::pack` into a slot. -/
def Packable.pack : {α : Type} → Packable α → Value → α → Except Failure Value
  | _, .atomic p, slot, v => return p.pack slot v
  -- `*v`, set or not
  | _, .optional _, _, none => throw .undefined
  | _, .optional t, slot, some x => t.pack slot x
  | _, .required _, _, none => throw (.threw (.thrown .requiredFieldNotSet))
  | _, .required t, slot, some x => t.pack slot x
  | _, .vector t, _, v => packArray (fun slot x => t.pack slot x) v
  | _, .list t, _, v => packArray (fun slot x => t.pack slot x) v
  | _, .set _ t, _, v => packArray (fun slot x => t.pack slot x) v.items
  | _, .stringMap t, _, v => do
      let o ← packItems (fun slot x => t.pack slot x) v.items []
      return .object o
  | _, .map _ k t, _, v =>
      packArray (fun _ x =>
        packPair (fun slot y => k.pack slot y) (fun slot y => t.pack slot y) x) v.items
  | _, .pair t u, _, v => packPair (fun slot x => t.pack slot x) (fun slot x => u.pack slot x) v
  | _, .sequence ts, _, v => do
      let a ← ts.pack [] v
      return .array a
  | _, .struct ts members, _, v => do
      let obj ← ts.pack [] (members v)
      return .object obj

/-- `pack_sequence` on the elements of a sequence. -/
def Parts.pack : {α : Type} → Parts α → List Value → α → Except Failure (List Value)
  | _, .nil, a, _ => return a
  | _, .cons t ts, a, (x, xs) => do
      let val ← t.pack .null x
      ts.pack (a ++ [val]) xs

/-- `pack_object_visitor` on the members of a struct. -/
def Fields.pack : {names : List Text} → {α : Type} → Fields names α → Object → α →
    Except Failure Object
  | _, _, .nil, obj, _ => return obj
  | _, _, .cons name _ t ts, obj, (x, xs) => do
      let obj ← packHelper (t.unset x) obj name (fun slot => t.pack slot x)
      ts.pack obj xs
end

/-! ## Construction -/

/-- A default-constructed object of a type of its own overload. -/
def Atomic.construct (memory : Memory) : {α : Type} → Atomic α → α
  | _, .value => .null
  | _, .bool => memory.bool
  | _, .float => memory.double.toSingle
  | _, .double => memory.double
  | _, .integer i _ => i.ofInt memory.int
  | _, .signedInt => 0
  | _, .unsignedInt => 0
  | _, .string => []
  | _, .chars => []

mutual
/-- A default-constructed object. -/
def Packable.construct (memory : Memory) : {α : Type} → Packable α → α
  | _, .atomic p => p.construct memory
  | _, .optional _ => none
  | _, .required _ => none
  | _, .vector _ => []
  | _, .list _ => []
  | _, .set _ _ => .empty
  | _, .stringMap _ => .empty
  | _, .map _ _ _ => .empty
  | _, .pair t u => (t.construct .zero, u.construct .zero)
  | _, .sequence ts => ts.construct memory
  | _, .struct ts members => members.symm (ts.construct memory)

/-- The elements of a default-constructed sequence. -/
def Parts.construct (memory : Memory) : {α : Type} → Parts α → α
  | _, .nil => ()
  | _, .cons t ts => (t.construct memory, ts.construct memory)

/-- The members of a default-constructed struct. -/
def Fields.construct (memory : Memory) : {names : List Text} → {α : Type} → Fields names α → α
  | _, _, .nil => ()
  | _, _, .cons _ _ t ts => (t.construct memory, ts.construct memory)
end

/-! ## Unpacking -/

/-- `json::unpack`, for a type of its own overload. -/
def Atomic.unpack : {α : Type} → Atomic α → Value → Except Failure α
  | _, .value, jsv => return jsv
  | _, .bool, jsv => raised jsv.getBool
  -- a `json::value` holds no `float`
  | _, .float, _ => throw (.threw (.thrown .badGet))
  | _, .double, jsv => raised jsv.getDouble
  | _, .integer i _, jsv => unpackInteger i jsv
  | _, .signedInt, jsv => unpackInteger .int32 jsv
  | _, .unsignedInt, jsv => unpackInteger .uint32 jsv
  | _, .string, jsv => raised jsv.getString
  | _, .chars, jsv => unpackBlob jsv

mutual
/-- `json::unpack` into a target that holds a value. -/
def Packable.unpack (memory : Memory) : {α : Type} → Packable α → Value → α → Except Failure α
  | _, .atomic p, jsv, _ => p.unpack jsv
  | _, .optional t, jsv, _ => do
      let x ← t.unpack memory jsv (t.construct .zero)
      return some x
  | _, .required t, jsv, _ => do
      let x ← t.unpack memory jsv (t.construct .zero)
      return some x
  | _, .vector t, jsv, v => do
      let a ← raised jsv.toArray
      countedLoop (fun v val => do
        let x ← t.unpack memory val (t.construct memory)
        return v ++ [x]) a v
  -- These two do not compile: a `std::list` has no `reserve`, and a `std::set` no `resize`.
  | _, .list _, _, _ => throw .undefined
  | _, .set _ _, _, _ => throw .undefined
  | _, .stringMap t, jsv, _ => do
      let o ← raised jsv.toObject
      countedLoop (fun m entry => do
        let x ← t.unpack memory entry.2 (OrderedMap.slot m entry.1 (t.construct .zero))
        return OrderedMap.assign m entry.1 x) o .empty
  | _, .map _ k t, jsv, _ => do
      let a ← raised jsv.toArray
      countedLoop (fun m val => do
        let p ← unpackPair (fun val x => k.unpack memory val x) (fun val x => t.unpack memory val x)
          val (k.construct .zero, t.construct .zero)
        return OrderedMap.assign m p.1 p.2) a .empty
  | _, .pair t u, jsv, v =>
      unpackPair (fun val x => t.unpack memory val x) (fun val x => u.unpack memory val x) jsv v
  | _, .sequence ts, jsv, v => do
      let a ← raised jsv.toArray
      ts.unpack memory (.begin a) v
  | _, .struct ts members, jsv, v => do
      let obj ← raised jsv.toObject
      let x ← ts.unpack memory obj (members v)
      return members.symm x

/-- `unpack_sequence` on the elements of a sequence. -/
def Parts.unpack (memory : Memory) : {α : Type} → Parts α → ConstIterator → α → Except Failure α
  | _, .nil, _, _ => return ()
  | _, .cons _ ts, .null, (x, xs) => do
      let xs ← ts.unpack memory .null xs
      return (x, xs)
  -- the iterator is at the end of the array
  | _, .cons _ _, .before [], _ => throw .undefined
  | _, .cons t ts, .before (val :: vals), (x, xs) => do
      let x ← t.unpack memory val x
      let xs ← ts.unpack memory (.before vals) xs
      return (x, xs)

/-- `unpack_object_visitor` on the members of a struct. -/
def Fields.unpack (memory : Memory) : {names : List Text} → {α : Type} → Fields names α → Object →
    α → Except Failure α
  | _, _, .nil, _, _ => return ()
  | _, _, .cons name _ t ts, obj, (x, xs) => do
      let x ← visitMember (fun val => t.unpack memory val x) obj name x
      let xs ← ts.unpack memory obj xs
      return (x, xs)
end

end BoostRpc.Json
