import BoostRpc.Json.Packable

/-!
# The types that come back

`JsonType` packs integers without rounding them. Where no integer type has more than 53 bits, its
`pack`, `unpack` and `construct` are those of `Packable`: what is proved of the one holds of the
other.
-/

namespace BoostRpc.Json

open Ordered Raw

/-! ## The embedding -/

theorem Integer.Narrow.pack_eq {α : Type} {i : Integer α} (h : i.Narrow) (slot : Value) (v : α) :
    packInteger i slot v = .int (i.toInt v) :=
  (Except.ok.inj (pack_small_integer (h.small v) slot)).symm

mutual
/-- All integer types in it are narrow. -/
def JsonType.Narrow : {α : Type} → JsonType α → Prop
  | _, .integer i => i.Narrow
  | _, .vector t => t.Narrow
  | _, .stringMap t => t.Narrow
  | _, .map _ k t => k.Narrow ∧ t.Narrow
  | _, .pair t u => t.Narrow ∧ u.Narrow
  | _, .required t => t.Narrow
  | _, .sequence ts => ts.Narrow
  | _, .struct ts _ => ts.Narrow
  | _, .bool => True
  | _, .signedInt => True
  | _, .unsignedInt => True
  | _, .double => True
  | _, .string => True
  | _, .value => True

def Elements.Narrow : {α : Type} → Elements α → Prop
  | _, .nil => True
  | _, .cons t ts => t.Narrow ∧ ts.Narrow

def Members.Narrow : {names : List Text} → {α : Type} → Members names α → Prop
  | _, _, .nil => True
  | _, _, .cons _ _ t ts => t.Narrow ∧ ts.Narrow
  | _, _, .optional _ _ t ts => t.Narrow ∧ ts.Narrow
end

mutual
/-- The same type among all that are packed. -/
def JsonType.packable : {α : Type} → (t : JsonType α) → t.Narrow → Packable α
  | _, .bool, _ => .atomic .bool
  | _, .integer i, h => .atomic (.integer i h.exact)
  | _, .signedInt, _ => .atomic .signedInt
  | _, .unsignedInt, _ => .atomic .unsignedInt
  | _, .double, _ => .atomic .double
  | _, .string, _ => .atomic .string
  | _, .value, _ => .atomic .value
  | _, .vector t, h => .vector (t.packable h)
  | _, .stringMap t, h => .stringMap (t.packable h)
  | _, .map less k t, h => .map less (k.packable h.1) (t.packable h.2)
  | _, .pair t u, h => .pair (t.packable h.1) (u.packable h.2)
  | _, .required t, h => .required (t.packable h)
  | _, .sequence ts, h => .sequence (ts.packable h)
  | _, .struct ts members, h => .struct (ts.packable h) members

def Elements.packable : {α : Type} → (ts : Elements α) → ts.Narrow → Parts α
  | _, .nil, _ => .nil
  | _, .cons t ts, h => .cons (t.packable h.1) (ts.packable h.2)

def Members.packable : {names : List Text} → {α : Type} → (ts : Members names α) → ts.Narrow →
    Fields names α
  | _, _, .nil, _ => .nil
  | _, _, .cons name fresh t ts, h => .cons name fresh (t.packable h.1) (ts.packable h.2)
  | _, _, .optional name fresh t ts, h =>
      .cons name fresh (.optional (t.packable h.1)) (ts.packable h.2)
end

/-- No type among those that come back is an optional. -/
theorem JsonType.set {α : Type} (t : JsonType α) (h : t.Narrow) (v : α) :
    (t.packable h).unset v = false := by
  cases t <;> rfl

/-! ## The functions -/

mutual
theorem JsonType.pack_packable {α : Type} (t : JsonType α) (h : t.Narrow) :
    (t.packable h).pack = Json.pack t := by
  funext slot v
  match t, h, v with
  | .bool, _, _ => rfl
  | .integer i, h, v => exact congrArg Except.ok (h.pack_eq slot v)
  | .signedInt, _, v => exact congrArg Except.ok (narrow_int32.pack_eq slot v)
  | .unsignedInt, _, v => exact congrArg Except.ok (narrow_uint32.pack_eq slot v)
  | .double, _, _ => rfl
  | .string, _, _ => rfl
  | .value, _, _ => rfl
  | .vector t, h, v => exact congrArg (packArray · v) (t.pack_packable h)
  | .stringMap t, h, v =>
      exact congrArg (fun item => packItems item v.items [] >>= fun o =>
        Except.ok (Value.object o)) (t.pack_packable h)
  | .map _ k t, h, v =>
      exact congrArg₂ (fun first second => packArray (fun _ x => packPair first second x) v.items)
        (k.pack_packable h.1) (t.pack_packable h.2)
  | .pair t u, h, v =>
      exact congrArg₂ (fun first second => packPair first second v) (t.pack_packable h.1)
        (u.pack_packable h.2)
  | .required _, _, none => rfl
  | .required t, h, some x => exact congrFun (congrFun (t.pack_packable h) slot) x
  | .sequence ts, h, v =>
      exact congrArg (fun item => item [] v >>= fun a => Except.ok (Value.array a))
        (ts.pack_packable h)
  | .struct ts members, h, v =>
      exact congrArg (fun item => item [] (members v) >>= fun obj =>
        Except.ok (Value.object obj)) (ts.pack_packable h)

theorem Elements.pack_packable {α : Type} (ts : Elements α) (h : ts.Narrow) :
    (ts.packable h).pack = packSequence ts := by
  funext a v
  match ts, h, v with
  | .nil, _, _ => rfl
  | .cons t ts, h, (x, xs) =>
      exact congrArg₂ (fun item items => item .null x >>= fun val => items (a ++ [val]) xs)
        (t.pack_packable h.1) (ts.pack_packable h.2)

theorem Members.pack_packable {names : List Text} {α : Type} (ts : Members names α)
    (h : ts.Narrow) : (ts.packable h).pack = packObject ts := by
  funext obj v
  match ts, h, v with
  | .nil, _, _ => rfl
  | .cons name _ t ts, h, (x, xs) =>
      show (packHelper ((t.packable h.1).unset x) obj name
        (fun slot => (t.packable h.1).pack slot x) >>= fun obj => (ts.packable h.2).pack obj xs) = _
      rw [t.set h.1 x, t.pack_packable h.1, ts.pack_packable h.2]
      rfl
  | .optional _ _ _ ts, h, (none, xs) =>
      exact congrArg (fun items => items obj xs) (ts.pack_packable h.2)
  | .optional name _ t ts, h, (some x, xs) =>
      exact congrArg₂ (fun item items => packMember obj name (fun slot => item slot x) >>=
        fun obj => items obj xs) (t.pack_packable h.1) (ts.pack_packable h.2)
end

mutual
theorem JsonType.construct_packable (memory : Memory) {α : Type} (t : JsonType α) (h : t.Narrow) :
    (t.packable h).construct memory = Json.construct memory t := by
  match t, h with
  | .bool, _ => rfl
  | .integer _, _ => rfl
  | .signedInt, _ => rfl
  | .unsignedInt, _ => rfl
  | .double, _ => rfl
  | .string, _ => rfl
  | .value, _ => rfl
  | .vector _, _ => rfl
  | .stringMap _, _ => rfl
  | .map _ _ _, _ => rfl
  | .pair t u, h =>
      exact congrArg₂ Prod.mk (t.construct_packable .zero h.1) (u.construct_packable .zero h.2)
  | .required _, _ => rfl
  | .sequence ts, h => exact ts.construct_packable memory h
  | .struct ts members, h => exact congrArg members.symm (ts.construct_packable memory h)

theorem Elements.construct_packable (memory : Memory) {α : Type} (ts : Elements α)
    (h : ts.Narrow) : (ts.packable h).construct memory = constructElements memory ts := by
  match ts, h with
  | .nil, _ => rfl
  | .cons t ts, h =>
      exact congrArg₂ Prod.mk (t.construct_packable memory h.1) (ts.construct_packable memory h.2)

theorem Members.construct_packable (memory : Memory) {names : List Text} {α : Type}
    (ts : Members names α) (h : ts.Narrow) :
    (ts.packable h).construct memory = constructMembers memory ts := by
  match ts, h with
  | .nil, _ => rfl
  | .cons _ _ t ts, h =>
      exact congrArg₂ Prod.mk (t.construct_packable memory h.1) (ts.construct_packable memory h.2)
  | .optional _ _ _ ts, h => exact congrArg (Prod.mk none) (ts.construct_packable memory h.2)
end

mutual
theorem JsonType.unpack_packable (memory : Memory) {α : Type} (t : JsonType α) (h : t.Narrow) :
    (t.packable h).unpack memory = Json.unpack memory t := by
  funext jsv w
  match t, h, w with
  | .bool, _, _ => rfl
  | .integer _, _, _ => rfl
  | .signedInt, _, _ => rfl
  | .unsignedInt, _, _ => rfl
  | .double, _, _ => rfl
  | .string, _, _ => rfl
  | .value, _, _ => rfl
  | .vector t, h, w =>
      unfold JsonType.packable Packable.unpack
      rw [t.unpack_packable memory h, t.construct_packable memory h]
      rfl
  | .stringMap t, h, w =>
      unfold JsonType.packable Packable.unpack
      rw [t.unpack_packable memory h, t.construct_packable .zero h]
      rfl
  | .map _ k t, h, w =>
      unfold JsonType.packable Packable.unpack
      rw [k.unpack_packable memory h.1, t.unpack_packable memory h.2,
        k.construct_packable .zero h.1, t.construct_packable .zero h.2]
      rfl
  | .pair t u, h, w =>
      unfold JsonType.packable Packable.unpack
      rw [t.unpack_packable memory h.1, u.unpack_packable memory h.2]
      rfl
  | .required t, h, w =>
      unfold JsonType.packable Packable.unpack
      rw [t.unpack_packable memory h, t.construct_packable .zero h]
      rfl
  | .sequence ts, h, w =>
      unfold JsonType.packable Packable.unpack
      rw [ts.unpack_packable memory h]
      rfl
  | .struct ts members, h, w =>
      unfold JsonType.packable Packable.unpack
      rw [ts.unpack_packable memory h]
      rfl

theorem Elements.unpack_packable (memory : Memory) {α : Type} (ts : Elements α) (h : ts.Narrow) :
    (ts.packable h).unpack memory = unpackSequence memory ts := by
  funext itr w
  match ts, h, itr, w with
  | .nil, _, _, _ => rfl
  | .cons _ ts, h, .null, (w, ws) =>
      exact congrArg (fun items => items .null ws >>= fun xs => .ok (w, xs))
        (ts.unpack_packable memory h.2)
  | .cons _ _, _, .before [], _ => rfl
  | .cons t ts, h, .before (val :: vals), (w, ws) =>
      exact congrArg₂ (fun item items => item val w >>= fun x => items (.before vals) ws >>=
        fun xs => .ok (x, xs)) (t.unpack_packable memory h.1) (ts.unpack_packable memory h.2)

theorem Members.unpack_packable (memory : Memory) {names : List Text} {α : Type}
    (ts : Members names α) (h : ts.Narrow) :
    (ts.packable h).unpack memory = unpackObject memory ts := by
  funext obj w
  match ts, h, w with
  | .nil, _, _ => rfl
  | .cons name _ t ts, h, (w, ws) =>
      unfold Members.packable Fields.unpack unpackObject visitMember
      rw [t.unpack_packable memory h.1, ts.unpack_packable memory h.2]
      cases obj.contains name with
      | true => exact bind_assoc (m := Except Failure) _ _ _
      | false => rfl
  | .optional name _ t ts, h, (w, ws) =>
      unfold Members.packable Fields.unpack Packable.unpack unpackObject visitMember
      rw [t.unpack_packable memory h.1, ts.unpack_packable memory h.2,
        t.construct_packable .zero h.1]
      cases obj.contains name with
      | true =>
          show ((raised (obj.at name) >>= fun val =>
            unpack memory t val (construct .zero t) >>= fun y => Except.ok (some y)) >>= fun x =>
              unpackObject memory ts obj ws >>= fun xs => Except.ok (x, xs)) = _
          simp only [bind_assoc]
          rfl
      | false => rfl
end

end BoostRpc.Json
