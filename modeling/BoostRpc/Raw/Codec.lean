import BoostRpc.Ordered
import BoostRpc.Raw.Varint
import Mathlib.Logic.Equiv.Defs

/-!
# The raw codec

`raw::pack` and `raw::unpack`. The overloads recurse over the C++ type of their argument, which
`Layout` stands for: it records which overload a type selects, together with the Lean type of its
values. `pack` writes to any stream; `unpack` reads from a `datastream<const char*>` into a target
that holds a value already.
-/

namespace BoostRpc.Raw

open Ordered

/-- A C++ type that is copied by `memcpy`: its size and the object representation of its
values. -/
structure Scalar (α : Type) where
  size : UInt32
  size_pos : 0 < size.toNat
  repr : α ≃ List.Vector Byte size.toNat

/-- The values of a `std::set`. -/
abbrev OrderedSet {α : Type} (cmp : Compare α) : Type := Items cmp (id : α → α)

/-- The values of a `std::map`. -/
abbrev OrderedMap {κ : Type} (cmp : Compare κ) (ν : Type) : Type :=
  Items cmp (Prod.fst : κ × ν → κ)

/-- Whether a layout is that of one type or of several in a row. -/
inductive Kind where
  | single
  | several

/-- The C++ types that the codec is instantiated with and, as `Kind.several`, the element types of
fusion sequences and the member types of reflected structs. -/
inductive Layout : Kind → Type → Type 1 where
  | bool : Layout .single Bool
  | pod {α : Type} (scalar : Scalar α) : Layout .single α
  | unsignedInt : Layout .single UInt32
  | signedInt : Layout .single Int32
  /-- `std::string` -/
  | string : Layout .single Text
  /-- `std::vector<char>` -/
  | chars : Layout .single Text
  /-- `std::vector` and `std::list`. With `bool` it is the `std::list` alone: `unpack` of a
  `std::vector<bool>` does not compile. -/
  | container {α : Type} (t : Layout .single α) : Layout .single (List α)
  | set {α : Type} (cmp : Compare α) (t : Layout .single α) : Layout .single (OrderedSet cmp)
  | map {κ ν : Type} (cmp : Compare κ) (k : Layout .single κ) (t : Layout .single ν) :
      Layout .single (OrderedMap cmp ν)
  | optional {α : Type} (t : Layout .single α) : Layout .single (Option α)
  | required {α : Type} (t : Layout .single α) : Layout .single (Option α)
  /-- A fusion sequence. -/
  | sequence {α : Type} (ts : Layout .several α) : Layout .single α
  /-- A reflected struct, which `members` takes apart. -/
  | struct {S α : Type} (ts : Layout .several α) (members : S ≃ α) : Layout .single S
  | nil : Layout .several Unit
  | cons {α β : Type} (t : Layout .single α) (ts : Layout .several β) : Layout .several (α × β)

/-- Who selects the overload for a value: `raw::pack`, or `pack_helper` of the
`pack_object_visitor`. -/
inductive Caller where
  | pack
  | packHelper
  deriving DecidableEq

variable {σ : Type} [OutStream σ]

/-- `raw::pack` of a `std::string` and of a `std::vector<char>`. -/
def packChars (s : σ) (v : Text) : σ :=
  let s := packUnsigned s (UInt32.ofNat v.length)
  if v.length = 0 then s else OutStream.write s v

/-- `raw::pack` of a `bool`. -/
def packBool (s : σ) (v : Bool) : σ := OutStream.write s [if v then 1 else 0]

/-- `raw::pack`: the stream behind it, unless it looks into an unset `required`. -/
def pack : {k : Kind} → {α : Type} → Caller → Layout k α → σ → α → Option σ
  | _, _, _, .bool, s, v => some (packBool s v)
  | _, _, _, .pod scalar, s, v => some (OutStream.write s (scalar.repr v).toList)
  | _, _, _, .unsignedInt, s, v => some (packUnsigned s v)
  | _, _, _, .signedInt, s, v => some (packSigned s v)
  | _, _, _, .string, s, v => some (packChars s v)
  | _, _, _, .chars, s, v => some (packChars s v)
  | _, _, _, .container t, s, v =>
      v.foldlM (fun s x => pack .pack t s x) (packUnsigned s (UInt32.ofNat v.length))
  | _, _, _, .set _ t, s, v =>
      v.items.foldlM (fun s x => pack .pack t s x) (packUnsigned s (UInt32.ofNat v.items.length))
  | _, _, _, .map _ k t, s, v =>
      v.items.foldlM (fun s x => (pack .pack k s x.1).bind (fun s => pack .pack t s x.2))
        (packUnsigned s (UInt32.ofNat v.items.length))
  -- The visitor has an overload for optional members.
  | _, _, .packHelper, .optional _, s, none => some s
  | _, _, .packHelper, .optional t, s, some x => pack .pack t s x
  | _, _, .pack, .optional _, s, none => some (packBool s false)
  | _, _, .pack, .optional t, s, some x => pack .pack t (packBool s true) x
  | _, _, _, .required _, _, none => none
  | _, _, _, .required t, s, some x => pack .pack t s x
  | _, _, _, .sequence ts, s, v => pack .pack ts s v
  | _, _, _, .struct ts members, s, v => pack .packHelper ts s (members v)
  | _, _, _, .nil, s, _ => some s
  | _, _, c, .cons t ts, s, (x, xs) => (pack c t s x).bind (fun s => pack c ts s xs)

/-- A default-constructed value; `fill` is the byte that the memory of scalars holds before they
are assigned to. -/
def construct (fill : Byte) : {k : Kind} → {α : Type} → Layout k α → α
  | _, _, .bool => fill != 0
  | _, _, .pod scalar => scalar.repr.symm (List.Vector.replicate _ fill)
  | _, _, .unsignedInt => 0
  | _, _, .signedInt => 0
  | _, _, .string => []
  | _, _, .chars => []
  | _, _, .container _ => []
  | _, _, .set _ _ => .empty
  | _, _, .map _ _ _ => .empty
  | _, _, .optional _ => none
  | _, _, .required _ => none
  | _, _, .sequence ts => construct fill ts
  | _, _, .struct ts members => members.symm (construct fill ts)
  | _, _, .nil => ()
  | _, _, .cons t ts => (construct fill t, construct fill ts)

/-- `resize` of a vector or a list to `n` elements, the new ones being `x`. -/
def resize {α : Type} (n : Nat) (x : α) (v : List α) : List α :=
  v.take n ++ List.replicate (n - v.length) x

theorem length_resize {α : Type} (n : Nat) (x : α) (v : List α) : (resize n x v).length = n := by
  rw [resize, List.length_append, List.length_take, List.length_replicate]
  omega

theorem resize_nil {α : Type} (n : Nat) (x : α) : resize n x [] = List.replicate n x := by
  rw [resize, List.take_nil, List.nil_append, List.length_nil, Nat.sub_zero]

/-- The loop over the elements of a resized container. -/
def unpackEach {α : Type} (item : α → Reader α) : List α → Reader (List α)
  | [] => return []
  | x :: xs => do
      let x ← item x
      let xs ← unpackEach item xs
      return x :: xs

/-- A loop of `n` iterations. -/
def repeated {β : Type} (body : β → Reader β) : Nat → β → Reader β
  | 0, v => return v
  | n + 1, v => do
      let v ← body v
      repeated body n v

/-- `value[k]` of a `std::map`: the mapped value of `k`, or `x` where the key is new. -/
def OrderedMap.slot {κ ν : Type} {cmp : Compare κ} (m : OrderedMap cmp ν) (k : κ) (x : ν) : ν :=
  match m.find k with
  | some entry => entry.2
  | none => x

/-- The map after an assignment to `value[k]`. -/
def OrderedMap.assign {κ ν : Type} {cmp : Compare κ} (m : OrderedMap cmp ν) (k : κ) (x : ν) :
    OrderedMap cmp ν :=
  m.alter (k, x) (fun entry => (entry.1, x)) (fun _ => rfl)

/-- The key of the next item is new in front of it. -/
theorem OrderedMap.slot_front {κ ν : Type} {cmp : Compare κ} (m : OrderedMap cmp ν)
    {xs ys : List (κ × ν)} {entry : κ × ν} (h : xs ++ entry :: ys = m.items) (x : ν) :
    OrderedMap.slot (m.front h) entry.1 x = x := by
  rw [OrderedMap.slot, Items.find_last (m.above h)]

/-- The next item goes behind those in front of it. -/
theorem OrderedMap.assign_front {κ ν : Type} {cmp : Compare κ} (m : OrderedMap cmp ν)
    {xs ys : List (κ × ν)} {entry : κ × ν} (h : xs ++ entry :: ys = m.items) :
    OrderedMap.assign (m.front h) entry.1 entry.2 =
      m.front (show (xs ++ [entry]) ++ ys = m.items by simpa using h) :=
  m.alter_front _ h

/-- `insert` of a `std::set`. -/
def OrderedSet.insert {α : Type} {cmp : Compare α} (v : OrderedSet cmp) (x : α) :
    OrderedSet cmp :=
  v.alter x id (fun _ => rfl)

variable [Machine]

/-- `raw::unpack` of a `bool`. -/
def unpackBool : Reader Bool := do
  let (_, b) ← Datastream.read 1 (List.Vector.replicate _ Machine.junk)
  return b.toList != [0]

/-- `raw::unpack` of a `std::vector<char>`. -/
def unpackChars (v : Text) : Reader Text := do
  let size ← unpackUnsigned
  let v : List.Vector Byte size.toNat := ⟨resize size.toNat 0 v, length_resize _ _ _⟩
  if size.toNat = 0 then return v.toList
  else
    let (_, d) ← Datastream.read size v
    return d.toList

/-- `raw::unpack` into a target that holds a value. -/
def unpack : {k : Kind} → {α : Type} → Layout k α → α → Reader α
  | _, _, .bool, _ => unpackBool
  | _, _, .pod scalar, v => do
      let (_, d) ← Datastream.read scalar.size (scalar.repr v)
      return scalar.repr.symm d
  | _, _, .unsignedInt, _ => unpackUnsigned
  | _, _, .signedInt, _ => unpackSigned
  | _, _, .string, _ => unpackChars []
  | _, _, .chars, v => unpackChars v
  | _, _, .container t, v => do
      let size ← unpackUnsigned
      unpackEach (fun x => unpack t x) (resize size.toNat (construct 0 t) v)
  | _, _, .set _ t, v => do
      let size ← unpackUnsigned
      repeated (fun v => do
        let x ← unpack t (construct Machine.junk t)
        return OrderedSet.insert v x) size.toNat v
  | _, _, .map _ k t, _ => do
      let size ← unpackUnsigned
      repeated (fun v => do
        let key ← unpack k (construct Machine.junk k)
        let x ← unpack t (OrderedMap.slot v key (construct 0 t))
        return OrderedMap.assign v key x) size.toNat .empty
  | _, _, .optional t, v => do
      let b ← unpackBool
      if b then
        let x ← unpack t (construct 0 t)
        return some x
      else return v
  -- The overload for `required` takes a `const` stream and is never the best match; the general
  -- one rejects a type that is not fundamental.
  | _, _, .required _, _ => throw .illFormed
  | _, _, .sequence ts, v => unpack ts v
  | _, _, .struct ts members, v => do
      let x ← unpack ts (members v)
      return members.symm x
  | _, _, .nil, _ => return ()
  | _, _, .cons t ts, (x, xs) => do
      let x ← unpack t x
      let xs ← unpack ts xs
      return (x, xs)

end BoostRpc.Raw
