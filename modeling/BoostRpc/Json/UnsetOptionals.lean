import BoostRpc.Json.Overwriting
import BoostRpc.Json.UnsetFields

/-!
# Unset optionals

`json::pack` leaves out the members of structs that are unset optionals, and looks into an unset
optional anywhere else. `unset_optionals_iff` says when it does not, and when `json::unpack` gives
a value with the same optionals set back.
-/

namespace BoostRpc.Json

open Ordered Raw Rounding Base64

variable {α β γ : Type}

/-! ## The optionals that are set -/

mutual
/-- The same optionals are set in both values. -/
def Packable.SameSet : {α : Type} → Packable α → (v v' : α) → Prop
  | _, .atomic _, _, _ => True
  | _, .optional t, v, v' => Option.Rel t.SameSet v v'
  | _, .required t, v, v' => Option.Rel t.SameSet v v'
  | _, .vector t, v, v' => List.Forall₂ t.SameSet v v'
  | _, .list t, v, v' => List.Forall₂ t.SameSet v v'
  | _, .set _ t, v, v' => List.Forall₂ t.SameSet v.items v'.items
  | _, .stringMap t, v, v' =>
      List.Forall₂ (fun x y => y.1 = x.1 ∧ t.SameSet x.2 y.2) v.items v'.items
  | _, .map _ _ t, v, v' =>
      List.Forall₂ (fun x y => y.1 = x.1 ∧ t.SameSet x.2 y.2) v.items v'.items
  | _, .pair t u, v, v' => t.SameSet v.1 v'.1 ∧ u.SameSet v.2 v'.2
  | _, .sequence ts, v, v' => ts.SameSet v v'
  | _, .struct ts members, v, v' => ts.SameSet (members v) (members v')

def Parts.SameSet : {α : Type} → Parts α → (v v' : α) → Prop
  | _, .nil, _, _ => True
  | _, .cons t ts, v, v' => t.SameSet v.1 v'.1 ∧ ts.SameSet v.2 v'.2

def Fields.SameSet : {names : List Text} → {α : Type} → Fields names α → (v v' : α) → Prop
  | _, _, .nil, _, _ => True
  | _, _, .cons _ _ t ts, v, v' => t.SameSet v.1 v'.1 ∧ ts.SameSet v.2 v'.2
end

/-! ## What can be read -/

/-- What is packed into the slot can be read. -/
def Atomic.Legible : {α : Type} → Atomic α → Value → α → Prop
  | _, .value, _, _ => True
  | _, .bool, _, _ => True
  | _, .float, _, _ => False
  | _, .double, _, _ => True
  | _, .integer i _, _, v =>
      ∃ r : Int, Format.binary64.nearest (i.toInt v) = r ∧ i.least ≤ r ∧ r ≤ i.most
  | _, .signedInt, _, _ => True
  | _, .unsignedInt, _, _ => True
  | _, .string, _, _ => True
  | _, .chars, slot, v =>
      if v.length ≠ 0 then TextCounted v
      else ∃ text, slot = .string text ∧ (base64Decode text).isSome = true

theorem Atomic.legible_iff (p : Atomic α) (slot : Value) (v : α) :
    (∃ v', p.unpack (p.pack slot v) = .ok v') ↔ p.Legible slot v := by
  have hback : p.Back slot v → ∃ v', p.unpack (p.pack slot v) = .ok v' := fun h =>
    ⟨v, (p.back_iff slot v).mpr h⟩
  have htext : ∀ text, (∃ v', unpackBlob (.string text) = .ok v') ↔
      (base64Decode text).isSome = true := fun text => by
    rw [Option.isSome_iff_exists]
    exact exists_congr fun data => unpack_string_iff
  cases p with
  | float => exact iff_of_false (fun h => by obtain ⟨v', h⟩ := h; cases h) id
  | integer i exact =>
      obtain ⟨r, hr⟩ := nearest_integer (i.toInt v)
      show (∃ v', unpackInteger i (packInteger i slot v) = .ok v') ↔ ∃ r : Int, _
      rw [unpack_packed_integer hr]
      constructor
      · intro h'
        obtain ⟨v', h⟩ := h'
        split_ifs at h with hrange
        exact ⟨r, hr, hrange⟩
      · intro h'
        obtain ⟨r', hr', hrange⟩ := h'
        obtain rfl : r = r' := by exact_mod_cast hr.symm.trans hr'
        exact ⟨i.ofInt r, if_pos hrange⟩
  | chars =>
      show (∃ v', unpackBlob (packBlob slot v) = .ok v') ↔
        if v.length ≠ 0 then TextCounted v
        else ∃ text, slot = .string text ∧ (base64Decode text).isSome = true
      unfold packBlob
      split_ifs with hlength
      · exact (htext _).trans (decode_encode_returns_iff v)
      · cases slot with
        | string text =>
            refine (htext text).trans ⟨fun h => ⟨text, rfl, h⟩, ?_⟩
            intro h'
            obtain ⟨_, ⟨rfl⟩, h⟩ := h'
            exact h
        | _ =>
            refine iff_of_false ?_ ?_
            · intro h'
              obtain ⟨v', h⟩ := h'
              cases h
            · intro h'
              obtain ⟨text, h, _⟩ := h'
              cases h
  | _ => exact iff_of_true (hback trivial) trivial

mutual
/-- What the slot holds afterwards can be read, with the keys of the maps as they were. -/
def Packable.Legible : {α : Type} → Packable α → Value → α → Prop
  | _, .atomic p, slot, v => p.Legible slot v
  | _, .optional t, slot, v => ∃ x, v = some x ∧ t.Legible slot x
  | _, .required t, slot, v => ∃ x, v = some x ∧ t.Legible slot x
  | _, .vector t, _, v => v.length < 2 ^ 32 ∧ ∀ x ∈ v, t.Legible .null x
  -- Their overloads of `unpack` do not compile.
  | _, .list _, _, _ => False
  | _, .set _ _, _, _ => False
  | _, .stringMap t, _, v => v.items.length < 2 ^ 32 ∧ ∀ x ∈ v.items, t.Legible .null x.2
  | _, .map _ k t, _, v =>
      v.items.length < 2 ^ 32 ∧ ∀ x ∈ v.items, k.Back .null x.1 ∧ t.Legible .null x.2
  | _, .pair t u, _, v => t.Legible .null v.1 ∧ u.Legible .null v.2
  | _, .sequence ts, _, v => ts.Legible v
  | _, .struct ts members, _, v => ts.Legible (members v)

def Parts.Legible : {α : Type} → Parts α → α → Prop
  | _, .nil, _ => True
  | _, .cons t ts, v => t.Legible .null v.1 ∧ ts.Legible v.2

def Fields.Legible : {names : List Text} → {α : Type} → Fields names α → α → Prop
  | _, _, .nil, _ => True
  | _, _, .cons _ _ t ts, v => (t.unset v.1 = true ∨ t.Legible .null v.1) ∧ ts.Legible v.2
end

/-! ## Restoring -/

theorem forall₂_exists_iff {R S : α → β → Prop} {xs : List α} :
    (∃ ys, List.Forall₂ R xs ys ∧ List.Forall₂ S xs ys) ↔ ∀ x ∈ xs, ∃ y, R x y ∧ S x y := by
  constructor
  · intro h'
    obtain ⟨ys, hR, hS⟩ := h'
    induction hR with
    | nil => exact fun x hx => absurd hx List.not_mem_nil
    | cons hx _ ih =>
        cases hS with
        | cons hx' hrest => exact List.forall_mem_cons.mpr ⟨⟨_, hx, hx'⟩, ih hrest⟩
  · intro h
    induction xs with
    | nil => exact ⟨[], .nil, .nil⟩
    | cons x xs ih =>
        obtain ⟨⟨y, hR, hS⟩, hrest⟩ := List.forall_mem_cons.mp h
        obtain ⟨ys, hRs, hSs⟩ := ih hrest
        exact ⟨y :: ys, .cons hR hRs, .cons hS hSs⟩

theorem exists_pair_iff {A C : α → Prop} {B D : β → Prop} :
    (∃ v : α × β, (A v.1 ∧ B v.2) ∧ C v.1 ∧ D v.2) ↔ (∃ x, A x ∧ C x) ∧ ∃ y, B y ∧ D y := by
  constructor
  · intro h
    obtain ⟨v, ⟨hA, hB⟩, hC, hD⟩ := h
    exact ⟨⟨v.1, hA, hC⟩, v.2, hB, hD⟩
  · intro h
    obtain ⟨⟨x, hA, hC⟩, y, hB, hD⟩ := h
    exact ⟨(x, y), ⟨hA, hB⟩, hC, hD⟩

/-- Optionals that are set, or required fields. -/
theorem exists_some_iff {R S : α → α → Prop} {P : α → Prop} {v : Option α}
    (h : ∀ x, (∃ y, R x y ∧ S x y) ↔ P x) :
    (∃ v', (∃ x y, v = some x ∧ v' = some y ∧ R x y) ∧ Option.Rel S v v') ↔
      ∃ x, v = some x ∧ P x := by
  constructor
  · intro h'
    obtain ⟨_, ⟨x, y, rfl, rfl, hR⟩, hS⟩ := h'
    cases hS with
    | some hS => exact ⟨x, rfl, (h x).mp ⟨y, hR, hS⟩⟩
  · intro h'
    obtain ⟨x, rfl, hx⟩ := h'
    obtain ⟨y, hR, hS⟩ := (h x).mpr hx
    exact ⟨some y, ⟨x, y, rfl, rfl, hR⟩, .some hS⟩

/-- A map with the keys of another. -/
theorem exists_map_iff {κ ν : Type} {less : Compare κ} {R S : κ × ν → κ × ν → Prop}
    {v : OrderedMap less ν} :
    (∃ v' : OrderedMap less ν, List.Forall₂ R v.items v'.items ∧
        List.Forall₂ (fun x y => y.1 = x.1 ∧ S x y) v.items v'.items) ↔
      ∀ x ∈ v.items, ∃ y, R x y ∧ y.1 = x.1 ∧ S x y := by
  rw [← forall₂_exists_iff]
  constructor
  · intro h
    obtain ⟨v', hR, hS⟩ := h
    exact ⟨v'.items, hR, hS⟩
  · intro h
    obtain ⟨ys, hR, hS⟩ := h
    have hsorted : ys.Pairwise fun x y => less.lt x.1 y.1 = true := by
      rw [← List.pairwise_map (f := Prod.fst) (R := fun x y => less.lt x y = true), keys_packed hS]
      exact keys_ascend v
    exact ⟨⟨ys, hsorted⟩, hR, hS⟩

theorem Packable.same_set_of_unset {α : Type} {t : Packable α} {x : α} (h : t.unset x = true) :
    t.SameSet x x := by
  cases t with
  | optional t =>
      cases x with
      | none => exact .none
      | some x => cases h
  | _ => cases h

mutual
/-- A value with the same optionals set comes back if and only if it can be read. -/
theorem Packable.restores_iff (memory fill : Memory) {α : Type} (t : Packable α)
    (slot : Value) (v : α) :
    (∃ v', t.Returns memory slot (t.construct fill) v v' ∧ t.SameSet v v') ↔ t.Legible slot v := by
  match t, v with
  | .atomic p, v =>
      exact (exists_congr fun v' => and_iff_left trivial).trans (p.legible_iff slot v)
  | .optional t, v => exact exists_some_iff fun x => t.restores_iff memory .zero slot x
  | .required t, v => exact exists_some_iff fun x => t.restores_iff memory .zero slot x
  | .vector t, v =>
      refine Iff.trans ?_ (and_congr_right fun _ => forall₂_exists_iff.trans
        (forall₂_congr fun x _ => t.restores_iff memory memory .null x))
      constructor
      · intro h'
        obtain ⟨v', ⟨hsize, ys, hv', hys⟩, hsame⟩ := h'
        obtain rfl : v' = ys := hv'
        exact ⟨hsize, v', hys, hsame⟩
      · intro h'
        obtain ⟨hsize, ys, hys, hsame⟩ := h'
        exact ⟨ys, ⟨hsize, ys, rfl, hys⟩, hsame⟩
  | .list _, _ => exact iff_of_false (fun ⟨_, h, _⟩ => h) id
  | .set _ _, _ => exact iff_of_false (fun ⟨_, h, _⟩ => h) id
  | .stringMap t, v =>
      have hitem : ∀ x : Text × _, (∃ y : Text × _,
            (y.1 = x.1 ∧ t.Returns memory .null (t.construct .zero) x.2 y.2) ∧ y.1 = x.1 ∧
              t.SameSet x.2 y.2) ↔ t.Legible .null x.2 := by
        intro x
        rw [← t.restores_iff memory .zero .null x.2]
        constructor
        · intro h'
          obtain ⟨y, ⟨-, hreturns⟩, -, hsame⟩ := h'
          exact ⟨y.2, hreturns, hsame⟩
        · intro h'
          obtain ⟨y, hreturns, hsame⟩ := h'
          exact ⟨(x.1, y), ⟨rfl, hreturns⟩, rfl, hsame⟩
      refine Iff.trans ?_ (and_congr_right fun _ => exists_map_iff.trans
        (forall₂_congr fun x _ => hitem x))
      constructor
      · intro h'
        obtain ⟨v', ⟨hsize, hys⟩, hsame⟩ := h'
        exact ⟨hsize, v', hys, hsame⟩
      · intro h'
        obtain ⟨hsize, v', hys, hsame⟩ := h'
        exact ⟨v', ⟨hsize, hys⟩, hsame⟩
  | .map less k t, v =>
      have hkey := k.returns_construct_iff memory .zero .null
      constructor
      · intro h'
        obtain ⟨_, ⟨hsize, ys, rfl, hys⟩, hsame⟩ := h'
        obtain ⟨hitems, hall⟩ :=
          items_settle (fun x y z => k.steady memory) hys (keys_packed hsame)
        have hsame : List.Forall₂ (fun x y => y.1 = x.1 ∧ t.SameSet x.2 y.2) v.items ys :=
          hitems ▸ hsame
        refine ⟨hsize, fun x hx => ?_⟩
        obtain ⟨y, hy, hxy⟩ := forall₂_exists_iff.mp ⟨ys, hall, hsame⟩ x hx
        exact ⟨(hkey x.1).mp hy.2.1,
          (t.restores_iff memory .zero .null x.2).mp ⟨y.2, hy.2.2, hxy.2⟩⟩
      · intro h'
        obtain ⟨hsize, hlegible⟩ := h'
        have hitem : ∀ x ∈ v.items, ∃ y : _ × _,
            (k.Returns memory .null (k.construct .zero) x.1 y.1 ∧
              t.Returns memory .null (t.construct .zero) x.2 y.2) ∧ y.1 = x.1 ∧
                t.SameSet x.2 y.2 := by
          intro x hx
          obtain ⟨y, hreturns, hsame⟩ :=
            (t.restores_iff memory .zero .null x.2).mpr (hlegible x hx).2
          exact ⟨(x.1, y), ⟨(hkey x.1).mpr (hlegible x hx).1, hreturns⟩, rfl, hsame⟩
        obtain ⟨v', hys, hsame⟩ := exists_map_iff.mpr hitem
        exact ⟨v', ⟨hsize, v'.items, (assign_all_items v').symm, hys⟩, hsame⟩
  | .pair t u, v =>
      exact exists_pair_iff.trans (and_congr (t.restores_iff memory .zero .null v.1)
        (u.restores_iff memory .zero .null v.2))
  | .sequence ts, v => exact ts.restores_iff memory fill v
  | .struct ts members, v =>
      refine Iff.trans ?_ (ts.restores_iff memory fill (members v))
      unfold Packable.Returns Packable.construct
      rw [Equiv.apply_symm_apply]
      exact (members.surjective.exists (p := fun v' =>
        ts.Returns memory (ts.construct fill) (members v) v' ∧ ts.SameSet (members v) v')).symm

theorem Parts.restores_iff (memory fill : Memory) {α : Type} (ts : Parts α) (v : α) :
    (∃ v', ts.Returns memory (ts.construct fill) v v' ∧ ts.SameSet v v') ↔ ts.Legible v := by
  match ts, v with
  | .nil, _ => exact iff_of_true ⟨(), trivial, trivial⟩ trivial
  | .cons t ts, v =>
      exact exists_pair_iff.trans (and_congr (t.restores_iff memory fill .null v.1)
        (ts.restores_iff memory fill v.2))

theorem Fields.restores_iff (memory fill : Memory) {names : List Text} {α : Type}
    (ts : Fields names α) (v : α) :
    (∃ v', ts.Returns memory (ts.construct fill) v v' ∧ ts.SameSet v v') ↔ ts.Legible v := by
  match ts, v with
  | .nil, _ => exact iff_of_true ⟨(), trivial, trivial⟩ trivial
  | .cons _ _ t ts, v =>
      refine (exists_pair_iff (A := fun y => if t.unset v.1 then y = t.construct fill
        else t.Returns memory .null (t.construct fill) v.1 y)).trans
          (and_congr ?_ (ts.restores_iff memory fill v.2))
      cases hunset : t.unset v.1 with
      | true =>
          refine iff_of_true ⟨v.1, ?_, t.same_set_of_unset hunset⟩ (.inl rfl)
          rw [if_pos rfl, t.unset_construct hunset]
      | false =>
          simp only [if_neg Bool.false_ne_true]
          exact (t.restores_iff memory fill .null v.1).trans (or_iff_right Bool.false_ne_true).symm
end

/-- `json::pack` looks into an unset optional exactly where the first field that it finds unset is
one. It does not, and what it makes is unpacked as a value with the same optionals set, if and only
if the first such field is none and, where there is no such field at all, the value can be read. -/
theorem unset_optionals_iff (memory fill : Memory) {α : Type} (t : Packable α) (slot : Value)
    (v : α) :
    (t.pack slot v = .error .undefined ↔ t.firstUnset v = some .optional) ∧
    ((t.pack slot v ≠ .error .undefined ∧ ∀ jsv, t.pack slot v = .ok jsv →
        ∃ v', t.unpack memory jsv (t.construct fill) = .ok v' ∧ t.SameSet v v') ↔
      t.firstUnset v ≠ some .optional ∧ (t.firstUnset v = none → t.Legible slot v)) := by
  have hblame := t.blame_pack slot v
  have hlooks : t.pack slot v = .error .undefined ↔ t.firstUnset v = some .optional := by
    rw [← blame_error_iff, hblame]
    cases t.firstUnset v with
    | none => simp
    | some u => cases u <;> decide
  refine ⟨hlooks, and_congr (not_congr hlooks) ?_⟩
  cases hpack : t.pack slot v with
  | error e =>
      have hunset : t.firstUnset v ≠ none := by
        intro hnone
        rw [hpack, hnone] at hblame
        cases hblame
      exact iff_of_true (fun _ h => by cases h) fun h => absurd h hunset
  | ok jsv =>
      have hnone : t.firstUnset v = none := by
        rw [hpack] at hblame
        exact Option.map_eq_none_iff.mp hblame.symm
      have hrestores := t.restores_iff memory fill slot v
      simp only [← t.unpack_packed_iff memory hpack] at hrestores
      constructor
      · intro h _
        exact hrestores.mp (h jsv rfl)
      · intro h jsv' hjsv
        obtain rfl := Except.ok.inj hjsv
        exact hrestores.mpr (h hnone)

/-- An unset optional as the element of a vector and of a sequence, as the mapped value of a map and
as the result of a call: `json::pack` looks into it. -/
theorem unset_element :
    Packable.pack (.vector (.optional (.atomic .bool))) .null [none] = .error .undefined ∧
      Packable.pack (.sequence (.cons (.optional (.atomic .bool)) .nil)) .null (none, ()) =
        .error .undefined ∧
      Packable.pack (.stringMap (.optional (.atomic .bool))) .null (.single (str "a", none)) =
        .error .undefined ∧
      Packable.pack (.optional (.atomic .bool)) .null none = .error .undefined :=
  ⟨rfl, rfl, rfl, rfl⟩

end BoostRpc.Json
