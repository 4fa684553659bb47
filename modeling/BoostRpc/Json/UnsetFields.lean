import BoostRpc.Json.Packable

/-!
# What `json::pack` finds unset

`json::pack` stops at the first `required` that is not set, by throwing, and at the first
`boost::optional` that is not set, by looking into it, unless it is a member of a struct.
`Packable.blame_pack` says that it stops there and nowhere else.
-/

namespace BoostRpc.Json

open Ordered Raw

variable {α β γ : Type}

/-! ## Failures -/

/-- What can be unset. -/
inductive Unset where
  | optional
  | required
  deriving DecidableEq

/-- What `json::pack` does when it comes to it. -/
def Unset.failure : Unset → Failure
  | .optional => .undefined
  | .required => .threw (.thrown .requiredFieldNotSet)

/-- How a call failed. -/
def blame : Except Failure α → Option Failure
  | .ok _ => none
  | .error e => some e

theorem blame_error_iff {r : Except Failure α} {e : Failure} :
    blame r = some e ↔ r = .error e := by
  cases r with
  | ok x =>
      constructor
      · intro h
        cases h
      · intro h
        cases h
  | error e' =>
      constructor
      · intro h
        rw [Option.some.inj h]
      · intro h
        rw [Except.error.inj h]
        rfl

/-- Of two steps the first that fails is to blame. -/
theorem blame_bind {r : Except Failure α} {f : α → Except Failure β} {e : Option Failure}
    (h : ∀ x, blame (f x) = e) : blame (r >>= f) = (blame r).or e := by
  cases r with
  | ok x => exact h x
  | error e' => rfl

/-- Success is none of a step that cannot fail. -/
theorem blame_map {r : Except Failure α} {f : α → β} :
    blame (r >>= fun x => Except.ok (f x)) = blame r := by
  rw [blame_bind (e := none) fun _ => rfl, Option.or_none]

theorem blame_pack_member {item : Value → Except Failure Value} {e : Option Failure}
    (hitem : ∀ slot, blame (item slot) = e) (obj : Object) (name : Text) :
    blame (packMember obj name item) = e :=
  blame_map.trans (hitem _)

theorem blame_pack_helper {unset : Bool} {item : Value → Except Failure Value} {e : Option Unset}
    (hitem : ∀ slot, blame (item slot) = e.map Unset.failure) (obj : Object) (name : Text) :
    blame (packHelper unset obj name item) = (if unset then none else e).map Unset.failure := by
  cases unset with
  | true => rfl
  | false => exact blame_pack_member hitem obj name

/-- The loop over the elements never leaves the array. -/
theorem blame_pack_each {item : Value → α → Except Failure Value} {e : α → Option Failure}
    {xs : List α} (hitem : ∀ x ∈ xs, ∀ slot, blame (item slot x) = e x) {i : UInt32} {n : Nat}
    {a : List Value} (hi : i.toNat ≤ n) (ha : n + xs.length ≤ a.length) :
    blame (packEach item xs i a) = xs.findSome? e := by
  induction xs generalizing i n a with
  | nil => rfl
  | cons x xs ih =>
      rw [List.length_cons] at ha
      have hlt : i.toNat < a.length := by omega
      unfold packEach
      rw [List.getElem?_eq_getElem hlt]
      have hnext : (i + 1).toNat ≤ n + 1 := by
        rw [UInt32.toNat_add]
        exact (Nat.mod_le _ _).trans (Nat.succ_le_succ hi)
      have hrest : ∀ val, blame (packEach item xs (i + 1) (a.set i.toNat val)) =
          xs.findSome? e := fun val =>
        ih (fun y hy => hitem y (List.mem_cons_of_mem _ hy)) hnext
          (by rw [List.length_set]; omega)
      rw [List.findSome?_cons]
      show blame (item _ x >>= fun val => packEach item xs (i + 1) (a.set i.toNat val)) = _
      rw [blame_bind hrest, hitem x List.mem_cons_self]
      cases e x <;> rfl

theorem blame_pack_array {item : Value → α → Except Failure Value} {e : α → Option Failure}
    {xs : List α} (hitem : ∀ x ∈ xs, ∀ slot, blame (item slot x) = e x) :
    blame (packArray item xs) = xs.findSome? e := by
  unfold packArray
  exact blame_map.trans
    (blame_pack_each hitem (Nat.le_refl 0) (by rw [Nat.zero_add, List.length_replicate]))

theorem blame_pack_items {item : Value → β → Except Failure Value} {e : β → Option Failure}
    {xs : List (Text × β)} (hitem : ∀ x ∈ xs, ∀ slot, blame (item slot x.2) = e x.2)
    (o : Object) : blame (packItems item xs o) = xs.findSome? fun x => e x.2 := by
  induction xs generalizing o with
  | nil => rfl
  | cons x xs ih =>
      have hrest : ∀ o, blame (packItems item xs o) = xs.findSome? fun x => e x.2 :=
        ih fun y hy => hitem y (List.mem_cons_of_mem _ hy)
      rw [List.findSome?_cons]
      show blame (packMember o x.1 (fun slot => item slot x.2) >>= fun o => packItems item xs o) = _
      rw [blame_bind hrest, blame_pack_member (hitem x List.mem_cons_self)]
      cases e x.2 <;> rfl

theorem blame_pack_pair {first : Value → α → Except Failure Value}
    {second : Value → β → Except Failure Value} {v : α × β} {d e : Option Failure}
    (hfirst : ∀ slot, blame (first slot v.1) = d) (hsecond : ∀ slot, blame (second slot v.2) = e) :
    blame (packPair first second v) = d.or e := by
  unfold packPair
  rw [blame_bind (e := e), blame_pack_member hfirst]
  intro obj
  exact blame_map.trans (blame_pack_member hsecond obj _)

/-! ## The first field that is not set -/

mutual
/-- The first `required` or `boost::optional` that is not set, in the order of packing. Members of
structs of type `boost::optional` may be unset. -/
def Packable.firstUnset : {α : Type} → Packable α → α → Option Unset
  | _, .atomic _, _ => none
  | _, .optional _, none => some .optional
  | _, .optional t, some x => t.firstUnset x
  | _, .required _, none => some .required
  | _, .required t, some x => t.firstUnset x
  | _, .vector t, v => v.findSome? fun x => t.firstUnset x
  | _, .list t, v => v.findSome? fun x => t.firstUnset x
  | _, .set _ t, v => v.items.findSome? fun x => t.firstUnset x
  | _, .stringMap t, v => v.items.findSome? fun x => t.firstUnset x.2
  | _, .map _ k t, v => v.items.findSome? fun x => (k.firstUnset x.1).or (t.firstUnset x.2)
  | _, .pair t u, v => (t.firstUnset v.1).or (u.firstUnset v.2)
  | _, .sequence ts, v => ts.firstUnset v
  | _, .struct ts members, v => ts.firstUnset (members v)

def Parts.firstUnset : {α : Type} → Parts α → α → Option Unset
  | _, .nil, _ => none
  | _, .cons t ts, v => (t.firstUnset v.1).or (ts.firstUnset v.2)

def Fields.firstUnset : {names : List Text} → {α : Type} → Fields names α → α → Option Unset
  | _, _, .nil, _ => none
  | _, _, .cons _ _ t ts, v =>
      (if t.unset v.1 then none else t.firstUnset v.1).or (ts.firstUnset v.2)
end

theorem find_failure (xs : List α) (f : α → Option Unset) :
    (xs.findSome? fun x => (f x).map Unset.failure) = (xs.findSome? f).map Unset.failure := by
  induction xs with
  | nil => rfl
  | cons x xs ih =>
      rw [List.findSome?_cons, List.findSome?_cons]
      cases f x with
      | none => exact ih
      | some u => rfl

theorem or_failure (u v : Option Unset) :
    (u.map Unset.failure).or (v.map Unset.failure) = (u.or v).map Unset.failure := by
  cases u <;> rfl

mutual
/-- `json::pack` fails at the first field that is not set, and nowhere else, whatever the slot
holds. -/
theorem Packable.blame_pack {α : Type} (t : Packable α) (slot : Value) (v : α) :
    blame (t.pack slot v) = (t.firstUnset v).map Unset.failure := by
  match t, v with
  | .atomic p, v => rfl
  | .optional _, none => rfl
  | .optional t, some x => exact t.blame_pack slot x
  | .required _, none => rfl
  | .required t, some x => exact t.blame_pack slot x
  | .vector t, v =>
      exact (blame_pack_array fun x _ slot => t.blame_pack slot x).trans (find_failure v _)
  | .list t, v =>
      exact (blame_pack_array fun x _ slot => t.blame_pack slot x).trans (find_failure v _)
  | .set _ t, v =>
      exact (blame_pack_array fun x _ slot => t.blame_pack slot x).trans (find_failure v.items _)
  | .stringMap t, v =>
      exact blame_map.trans ((blame_pack_items (e := fun x => (t.firstUnset x).map Unset.failure)
        (fun x _ slot => t.blame_pack slot x.2) []).trans (find_failure v.items _))
  | .map _ k t, v =>
      refine (blame_pack_array fun x _ slot => ?_).trans (find_failure v.items _)
      refine (blame_pack_pair (fun slot => k.blame_pack slot x.1)
        fun slot => t.blame_pack slot x.2).trans (or_failure _ _)
  | .pair t u, v =>
      exact (blame_pack_pair (fun slot => t.blame_pack slot v.1)
        fun slot => u.blame_pack slot v.2).trans (or_failure _ _)
  | .sequence ts, v => exact blame_map.trans (ts.blame_pack [] v)
  | .struct ts members, v => exact blame_map.trans (ts.blame_pack [] (members v))

theorem Parts.blame_pack {α : Type} (ts : Parts α) (a : List Value) (v : α) :
    blame (ts.pack a v) = (ts.firstUnset v).map Unset.failure := by
  match ts, v with
  | .nil, v => rfl
  | .cons t ts, (x, xs) =>
      show blame (t.pack .null x >>= fun val => ts.pack (a ++ [val]) xs) = _
      rw [blame_bind fun val => ts.blame_pack (a ++ [val]) xs, t.blame_pack]
      exact or_failure _ _

theorem Fields.blame_pack {names : List Text} {α : Type} (ts : Fields names α) (obj : Object)
    (v : α) : blame (ts.pack obj v) = (ts.firstUnset v).map Unset.failure := by
  match ts, v with
  | .nil, v => rfl
  | .cons name _ t ts, (x, xs) =>
      show blame (packHelper (t.unset x) obj name (fun slot => t.pack slot x) >>= fun obj =>
        ts.pack obj xs) = _
      rw [blame_bind fun obj => ts.blame_pack obj xs]
      refine (congrArg (Option.or · _) ?_).trans (or_failure (if t.unset x then none
        else t.firstUnset x) _)
      exact blame_pack_helper (fun slot => t.blame_pack slot x) obj name
end

end BoostRpc.Json
