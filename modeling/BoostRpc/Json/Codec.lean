import BoostRpc.Json.Value
import BoostRpc.Raw.Codec

/-!
# The JSON codec

`json::pack` and `json::unpack`. The overloads recurse over the C++ type of their argument, which
`JsonType` stands for together with the element types of fusion sequences (`Elements`) and the
members of reflected structs (`Members`). `pack` gets the value that the slot holds before;
`unpack` gets the value that the target holds before.
-/

namespace BoostRpc.Json

open Ordered Raw

/-! ## Access -/

/-- `boost::get<double>` -/
def Value.getDouble : Value → Except Exception Double
  | .number x => .ok x
  | _ => .error (.thrown .badGet)

/-- `boost::get<bool>` -/
def Value.getBool : Value → Except Exception Bool
  | .bool b => .ok b
  | _ => .error (.thrown .badGet)

/-- `boost::get<array>` -/
def Value.toArray : Value → Except Exception (List Value)
  | .array vals => .ok vals
  | _ => .error (.thrown .badGet)

/-! ## Types -/

/-- A fundamental integer type: its range and how it stands for integers. -/
structure Integer (α : Type) where
  least : Int
  most : Int
  toInt : α → Int
  ofInt : Int → α
  inRange : ∀ n, least ≤ toInt n ∧ toInt n ≤ most
  ofInt_toInt : ∀ n, ofInt (toInt n) = n

/-- `int8_t` -/
def Integer.int8 : Integer Int8 where
  least := -(2 ^ 7)
  most := 2 ^ 7 - 1
  toInt := Int8.toInt
  ofInt := Int8.ofInt
  inRange n := ⟨n.le_toInt, by have := n.toInt_lt; omega⟩
  ofInt_toInt := Int8.ofInt_toInt

/-- `int16_t` -/
def Integer.int16 : Integer Int16 where
  least := -(2 ^ 15)
  most := 2 ^ 15 - 1
  toInt := Int16.toInt
  ofInt := Int16.ofInt
  inRange n := ⟨n.le_toInt, by have := n.toInt_lt; omega⟩
  ofInt_toInt := Int16.ofInt_toInt

/-- `int32_t` -/
def Integer.int32 : Integer Int32 where
  least := -(2 ^ 31)
  most := 2 ^ 31 - 1
  toInt := Int32.toInt
  ofInt := Int32.ofInt
  inRange n := ⟨n.le_toInt, by have := n.toInt_lt; omega⟩
  ofInt_toInt := Int32.ofInt_toInt

/-- `uint8_t` -/
def Integer.uint8 : Integer UInt8 where
  least := 0
  most := 2 ^ 8 - 1
  toInt n := n.toNat
  ofInt n := UInt8.ofNat n.toNat
  inRange n := by have := n.toNat_lt; omega
  ofInt_toInt n := by simp

/-- `uint16_t` -/
def Integer.uint16 : Integer UInt16 where
  least := 0
  most := 2 ^ 16 - 1
  toInt n := n.toNat
  ofInt n := UInt16.ofNat n.toNat
  inRange n := by have := n.toNat_lt; omega
  ofInt_toInt n := by simp

/-- `uint32_t` -/
def Integer.uint32 : Integer UInt32 where
  least := 0
  most := 2 ^ 32 - 1
  toInt n := n.toNat
  ofInt n := UInt32.ofNat n.toNat
  inRange n := by have := n.toNat_lt; omega
  ofInt_toInt n := by simp

/-- `std::less<std::string>`, which compares characters as unsigned. -/
def lessString : Compare Text := (Compare.ofNat UInt8.toNat).lex

mutual
/-- The C++ types that the codec is instantiated with. -/
inductive JsonType : Type → Type 1 where
  | bool : JsonType Bool
  | integer {α : Type} (i : Integer α) : JsonType α
  | signedInt : JsonType Int32
  | unsignedInt : JsonType UInt32
  | double : JsonType Double
  /-- `std::string` -/
  | string : JsonType Text
  /-- `json::value` -/
  | value : JsonType Value
  /-- `std::vector` of any type but `char`. -/
  | vector {α : Type} (t : JsonType α) : JsonType (List α)
  /-- `std::map` with keys of type `std::string`. -/
  | stringMap {ν : Type} (t : JsonType ν) : JsonType (OrderedMap lessString ν)
  /-- `std::map` with keys of any other type. -/
  | map {κ ν : Type} (less : Compare κ) (k : JsonType κ) (t : JsonType ν) :
      JsonType (OrderedMap less ν)
  | pair {α β : Type} (t : JsonType α) (u : JsonType β) : JsonType (α × β)
  | required {α : Type} (t : JsonType α) : JsonType (Option α)
  /-- A fusion sequence. -/
  | sequence {α : Type} (ts : Elements α) : JsonType α
  /-- A reflected struct, which `members` takes apart. -/
  | struct {S α : Type} {names : List Text} (ts : Members names α) (members : S ≃ α) : JsonType S

/-- The element types of a fusion sequence. -/
inductive Elements : Type → Type 1 where
  | nil : Elements Unit
  | cons {α β : Type} (t : JsonType α) (ts : Elements β) : Elements (α × β)

/-- The members of a reflected struct, with their names. -/
inductive Members : List Text → Type → Type 1 where
  | nil : Members [] Unit
  | cons {names : List Text} {α β : Type} (name : Text) (fresh : name ∉ names) (t : JsonType α)
      (ts : Members names β) : Members (name :: names) (α × β)
  /-- A member of type `boost::optional`. -/
  | optional {names : List Text} {α β : Type} (name : Text) (fresh : name ∉ names)
      (t : JsonType α) (ts : Members names β) : Members (name :: names) (Option α × β)
end

/-! ## Packing -/

/-- `pack( obj[name], v )` -/
def packMember (obj : Object) (name : Text) (item : Value → Except Failure Value) :
    Except Failure Object := do
  let val ← item ((obj.find? name).getD .null)
  return obj.assign name val

/-- The loop that packs the elements of a container into `a[i]`, with its counter of 32 bits. -/
def packEach {α : Type} (item : Value → α → Except Failure Value) :
    List α → UInt32 → List Value → Except Failure (List Value)
  | [], _, a => return a
  | x :: xs, i, a =>
      match a[i.toNat]? with
      | some slot => do
          let val ← item slot x
          packEach item xs (i + 1) (a.set i.toNat val)
      | none => throw .undefined

/-- `pack` of a `std::vector`, or of a `std::map` into an array. -/
def packArray {α : Type} (item : Value → α → Except Failure Value) (xs : List α) :
    Except Failure Value := do
  let a ← packEach item xs 0 (List.replicate xs.length .null)
  return .array a

/-- The loop that packs the items of a `std::map` into the members of an object. -/
def packItems {ν : Type} (item : Value → ν → Except Failure Value) :
    List (Text × ν) → Object → Except Failure Object
  | [], o => return o
  | (key, x) :: xs, o => do
      let o ← packMember o key (fun slot => item slot x)
      packItems item xs o

/-- `pack` of a `std::pair`. -/
def packPair {α β : Type} (first : Value → α → Except Failure Value)
    (second : Value → β → Except Failure Value) (v : α × β) : Except Failure Value := do
  let obj ← packMember [] (str "first") (fun slot => first slot v.1)
  let obj ← packMember obj (str "second") (fun slot => second slot v.2)
  return .object obj

mutual
/-- `json::pack` into a slot. -/
def pack : {α : Type} → JsonType α → Value → α → Except Failure Value
  | _, .bool, _, v => return .bool v
  | _, .integer i, _, v => return .int (i.toInt v)
  | _, .signedInt, _, v => return .int v.toInt
  | _, .unsignedInt, _, v => return .int v.toNat
  | _, .double, _, v => return .number v
  | _, .string, _, v => return .string v
  | _, .value, _, v => return v
  | _, .vector t, _, v => packArray (fun slot x => pack t slot x) v
  | _, .stringMap t, _, v => do
      let o ← packItems (fun slot x => pack t slot x) v.items []
      return .object o
  | _, .map _ k t, _, v =>
      packArray (fun _ x =>
        packPair (fun slot y => pack k slot y) (fun slot y => pack t slot y) x) v.items
  | _, .pair t u, _, v => packPair (fun slot x => pack t slot x) (fun slot x => pack u slot x) v
  | _, .required _, _, none => throw (.threw (.thrown .requiredFieldNotSet))
  | _, .required t, slot, some x => pack t slot x
  | _, .sequence ts, _, v => do
      let a ← packSequence ts [] v
      return .array a
  | _, .struct ts members, _, v => do
      let obj ← packObject ts [] (members v)
      return .object obj

/-- `pack_sequence` on the elements of a sequence. -/
def packSequence : {α : Type} → Elements α → List Value → α → Except Failure (List Value)
  | _, .nil, a, _ => return a
  | _, .cons t ts, a, (x, xs) => do
      let val ← pack t .null x
      packSequence ts (a ++ [val]) xs

/-- `pack_object_visitor` on the members of a struct. -/
def packObject : {names : List Text} → {α : Type} → Members names α → Object → α →
    Except Failure Object
  | _, _, .nil, obj, _ => return obj
  | _, _, .cons name _ t ts, obj, (x, xs) => do
      let obj ← packMember obj name (fun slot => pack t slot x)
      packObject ts obj xs
  | _, _, .optional _ _ _ ts, obj, (none, xs) => packObject ts obj xs
  | _, _, .optional name _ t ts, obj, (some x, xs) => do
      let obj ← packMember obj name (fun slot => pack t slot x)
      packObject ts obj xs
end

/-! ## Construction -/

/-- What objects of fundamental type hold before they are assigned to. -/
structure Memory where
  bool : Bool
  int : Int
  double : Double

/-- Memory that is initialised by `T()`. -/
def Memory.zero : Memory := ⟨false, 0, .finite 0⟩

mutual
/-- A default-constructed object. -/
def construct (memory : Memory) : {α : Type} → JsonType α → α
  | _, .bool => memory.bool
  | _, .integer i => i.ofInt memory.int
  | _, .signedInt => 0
  | _, .unsignedInt => 0
  | _, .double => memory.double
  | _, .string => []
  | _, .value => .null
  | _, .vector _ => []
  | _, .stringMap _ => .empty
  | _, .map _ _ _ => .empty
  | _, .pair t u => (construct .zero t, construct .zero u)
  | _, .required _ => none
  | _, .sequence ts => constructElements memory ts
  | _, .struct ts members => members.symm (constructMembers memory ts)

/-- The elements of a default-constructed sequence. -/
def constructElements (memory : Memory) : {α : Type} → Elements α → α
  | _, .nil => ()
  | _, .cons t ts => (construct memory t, constructElements memory ts)

/-- The members of a default-constructed struct. -/
def constructMembers (memory : Memory) : {names : List Text} → {α : Type} → Members names α → α
  | _, _, .nil => ()
  | _, _, .cons _ _ t ts => (construct memory t, constructMembers memory ts)
  | _, _, .optional _ _ _ ts => (none, constructMembers memory ts)
end

/-! ## Unpacking -/

/-- The conversion of a `double` to an integer type. -/
def Integer.ofDouble {α : Type} (i : Integer α) (x : Double) : Except Failure α :=
  match x.toInteger i.least i.most with
  | some n => return i.ofInt n
  | none => throw .undefined

theorem Integer.of_double_finite {α : Type} (i : Integer α) (x : ℚ) :
    i.ofDouble (.finite x) =
      if i.least ≤ truncate x ∧ truncate x ≤ i.most then .ok (i.ofInt (truncate x))
      else .error .undefined := by
  unfold Integer.ofDouble Double.toInteger
  by_cases h : i.least ≤ truncate x ∧ truncate x ≤ i.most
  · simp only [if_pos h]
    rfl
  · simp only [if_neg h]
    rfl

/-- `unpack` of an integer. -/
def unpackInteger {α : Type} (i : Integer α) (jsv : Value) : Except Failure α := do
  let x ← raised jsv.getDouble
  i.ofDouble x

/-- A loop over a vector with a counter of 32 bits, which stays below the size of a vector of
2^32 or more. -/
def countedLoop {β γ : Type} (body : β → γ → Except Failure β) (xs : List γ) (v : β) :
    Except Failure β :=
  if xs.length < 2 ^ 32 then xs.foldlM body v
  else do
    let _ ← (xs.take (2 ^ 32)).foldlM body v
    throw .endless

/-- `unpack` of a `std::pair`. -/
def unpackPair {α β : Type} (first : Value → α → Except Failure α)
    (second : Value → β → Except Failure β) (jsv : Value) (v : α × β) : Except Failure (α × β) := do
  let val ← raised (jsv.at (str "first"))
  let x ← first val v.1
  let val ← raised (jsv.at (str "second"))
  let y ← second val v.2
  return (x, y)

/-- An iterator over the elements of an array. -/
inductive ConstIterator where
  /-- `const_iterator()`, which is also where a vector without memory begins. -/
  | null
  /-- In front of the elements that are left. -/
  | before (rest : List Value)

/-- `array::begin` -/
def ConstIterator.begin : List Value → ConstIterator
  | [] => .null
  | val :: vals => .before (val :: vals)

mutual
/-- `json::unpack` into a target that holds a value. -/
def unpack (memory : Memory) : {α : Type} → JsonType α → Value → α → Except Failure α
  | _, .bool, jsv, _ => raised jsv.getBool
  | _, .integer i, jsv, _ => unpackInteger i jsv
  | _, .signedInt, jsv, _ => unpackInteger .int32 jsv
  | _, .unsignedInt, jsv, _ => unpackInteger .uint32 jsv
  | _, .double, jsv, _ => raised jsv.getDouble
  | _, .string, jsv, _ => raised jsv.getString
  | _, .value, jsv, _ => return jsv
  | _, .vector t, jsv, v => do
      let a ← raised jsv.toArray
      countedLoop (fun v val => do
        let x ← unpack memory t val (construct memory t)
        return v ++ [x]) a v
  | _, .stringMap t, jsv, _ => do
      let o ← raised jsv.toObject
      countedLoop (fun m entry => do
        let x ← unpack memory t entry.2 (OrderedMap.slot m entry.1 (construct .zero t))
        return OrderedMap.assign m entry.1 x) o .empty
  | _, .map _ k t, jsv, _ => do
      let a ← raised jsv.toArray
      countedLoop (fun m val => do
        let p ← unpackPair (fun val x => unpack memory k val x) (fun val x => unpack memory t val x)
          val (construct .zero k, construct .zero t)
        return OrderedMap.assign m p.1 p.2) a .empty
  | _, .pair t u, jsv, v =>
      unpackPair (fun val x => unpack memory t val x) (fun val x => unpack memory u val x) jsv v
  | _, .required t, jsv, _ => do
      let x ← unpack memory t jsv (construct .zero t)
      return some x
  | _, .sequence ts, jsv, v => do
      let a ← raised jsv.toArray
      unpackSequence memory ts (.begin a) v
  | _, .struct ts members, jsv, v => do
      let obj ← raised jsv.toObject
      let x ← unpackObject memory ts obj (members v)
      return members.symm x

/-- `unpack_sequence` on the elements of a sequence. -/
def unpackSequence (memory : Memory) : {α : Type} → Elements α → ConstIterator → α →
    Except Failure α
  | _, .nil, _, _ => return ()
  | _, .cons _ ts, .null, (x, xs) => do
      let xs ← unpackSequence memory ts .null xs
      return (x, xs)
  -- the iterator is at the end of the array
  | _, .cons _ _, .before [], _ => throw .undefined
  | _, .cons t ts, .before (val :: vals), (x, xs) => do
      let x ← unpack memory t val x
      let xs ← unpackSequence memory ts (.before vals) xs
      return (x, xs)

/-- `unpack_object_visitor` on the members of a struct. -/
def unpackObject (memory : Memory) : {names : List Text} → {α : Type} → Members names α →
    Object → α → Except Failure α
  | _, _, .nil, _, _ => return ()
  | _, _, .cons name _ t ts, obj, (x, xs) => do
      let x ←
        if obj.contains name then do
          let val ← raised (obj.at name)
          unpack memory t val x
        else .ok x
      let xs ← unpackObject memory ts obj xs
      return (x, xs)
  | _, _, .optional name _ t ts, obj, (x, xs) => do
      let x ←
        if obj.contains name then do
          let val ← raised (obj.at name)
          let y ← unpack memory t val (construct .zero t)
          Except.ok (some y)
        else .ok x
      let xs ← unpackObject memory ts obj xs
      return (x, xs)
end

end BoostRpc.Json
