import BoostRpc.Json.UnsetFields
import BoostRpc.Raw.TwoPasses

/-!
# Unset required fields

`json::pack` throws `required_field_not_set` at the first required field that is not set, unless it
looks into an unset optional before. `raw::pack` looks into the required field itself, set or not.
`required_refused_iff` says for which values of a type that both encode each of them refuses as it
should.
-/

namespace BoostRpc

open Ordered Json Raw

variable {α ρ : Type}

/-! ## The types of both encoders -/

mutual
/-- The C++ types that both encoders pack, with the types of their values in the two models. -/
inductive Shared : Type → Type → Type 1 where
  | bool : Shared Bool Bool
  | float {ρ : Type} (scalar : Scalar ρ) (number : ρ → Single) : Shared Single ρ
  | double {ρ : Type} (scalar : Scalar ρ) (number : ρ → Double) : Shared Double ρ
  | integer {α : Type} (i : Integer α) (exact : i.Exact) (scalar : Scalar α) : Shared α α
  | signedInt : Shared Int32 Int32
  | unsignedInt : Shared UInt32 UInt32
  | string : Shared Text Text
  | chars : Shared Text Text
  | optional {α ρ : Type} (t : Shared α ρ) : Shared (Option α) (Option ρ)
  | required {α ρ : Type} (t : Shared α ρ) : Shared (Option α) (Option ρ)
  | vector {α ρ : Type} (t : Shared α ρ) : Shared (List α) (List ρ)
  | list {α ρ : Type} (t : Shared α ρ) : Shared (List α) (List ρ)
  | set {α ρ : Type} (less : Compare α) (less' : Compare ρ) (t : Shared α ρ) :
      Shared (OrderedSet less) (OrderedSet less')
  | stringMap {ν τ : Type} (t : Shared ν τ) :
      Shared (OrderedMap lessString ν) (OrderedMap lessString τ)
  | map {κ ι ν τ : Type} (less : Compare κ) (less' : Compare ι) (k : Shared κ ι) (t : Shared ν τ) :
      Shared (OrderedMap less ν) (OrderedMap less' τ)
  | pair {α β ρ τ : Type} (t : Shared α ρ) (u : Shared β τ) : Shared (α × β) (ρ × τ × Unit)
  | sequence {α ρ : Type} (ts : SharedParts α ρ) : Shared α ρ
  | struct {S S' α ρ : Type} {names : List Text} (ts : SharedFields names α ρ) (members : S ≃ α)
      (members' : S' ≃ ρ) : Shared S S'

/-- The element types of a fusion sequence. -/
inductive SharedParts : Type → Type → Type 1 where
  | nil : SharedParts Unit Unit
  | cons {α β ρ τ : Type} (t : Shared α ρ) (ts : SharedParts β τ) : SharedParts (α × β) (ρ × τ)

/-- The members of a reflected struct, with their names. -/
inductive SharedFields : List Text → Type → Type → Type 1 where
  | nil : SharedFields [] Unit Unit
  | cons {names : List Text} {α β ρ τ : Type} (name : Text) (fresh : name ∉ names)
      (t : Shared α ρ) (ts : SharedFields names β τ) :
      SharedFields (name :: names) (α × β) (ρ × τ)
end

mutual
/-- The type as `json::pack` sees it. -/
def Shared.packable : {α ρ : Type} → Shared α ρ → Packable α
  | _, _, .bool => .atomic .bool
  | _, _, .float _ _ => .atomic .float
  | _, _, .double _ _ => .atomic .double
  | _, _, .integer i exact _ => .atomic (.integer i exact)
  | _, _, .signedInt => .atomic .signedInt
  | _, _, .unsignedInt => .atomic .unsignedInt
  | _, _, .string => .atomic .string
  | _, _, .chars => .atomic .chars
  | _, _, .optional t => .optional t.packable
  | _, _, .required t => .required t.packable
  | _, _, .vector t => .vector t.packable
  | _, _, .list t => .list t.packable
  | _, _, .set less _ t => .set less t.packable
  | _, _, .stringMap t => .stringMap t.packable
  | _, _, .map less _ k t => .map less k.packable t.packable
  | _, _, .pair t u => .pair t.packable u.packable
  | _, _, .sequence ts => .sequence ts.packable
  | _, _, .struct ts members _ => .struct ts.packable members

def SharedParts.packable : {α ρ : Type} → SharedParts α ρ → Parts α
  | _, _, .nil => .nil
  | _, _, .cons t ts => .cons t.packable ts.packable

def SharedFields.packable : {names : List Text} → {α ρ : Type} → SharedFields names α ρ →
    Fields names α
  | _, _, _, .nil => .nil
  | _, _, _, .cons name fresh t ts => .cons name fresh t.packable ts.packable
end

mutual
/-- The type as `raw::pack` sees it. -/
def Shared.layout : {α ρ : Type} → Shared α ρ → Layout .single ρ
  | _, _, .bool => .bool
  | _, _, .float scalar _ => .pod scalar
  | _, _, .double scalar _ => .pod scalar
  | _, _, .integer _ _ scalar => .pod scalar
  | _, _, .signedInt => .signedInt
  | _, _, .unsignedInt => .unsignedInt
  | _, _, .string => .string
  | _, _, .chars => .chars
  | _, _, .optional t => .optional t.layout
  | _, _, .required t => .required t.layout
  | _, _, .vector t => .container t.layout
  | _, _, .list t => .container t.layout
  | _, _, .set _ less' t => .set less' t.layout
  | _, _, .stringMap t => .map lessString .string t.layout
  | _, _, .map _ less' k t => .map less' k.layout t.layout
  -- Its overload packs `first` and then `second`.
  | _, _, .pair t u => .sequence (.cons t.layout (.cons u.layout .nil))
  | _, _, .sequence ts => .sequence ts.layout
  | _, _, .struct ts _ members' => .struct ts.layout members'

def SharedParts.layout : {α ρ : Type} → SharedParts α ρ → Layout .several ρ
  | _, _, .nil => .nil
  | _, _, .cons t ts => .cons t.layout ts.layout

def SharedFields.layout : {names : List Text} → {α ρ : Type} → SharedFields names α ρ →
    Layout .several ρ
  | _, _, _, .nil => .nil
  | _, _, _, .cons _ _ t ts => .cons t.layout ts.layout
end

mutual
/-- Both models have the same value. -/
def Shared.Same : {α ρ : Type} → Shared α ρ → α → ρ → Prop
  | _, _, .bool, v, r => v = r
  | _, _, .float _ number, v, r => v = number r
  | _, _, .double _ number, v, r => v = number r
  | _, _, .integer _ _ _, v, r => v = r
  | _, _, .signedInt, v, r => v = r
  | _, _, .unsignedInt, v, r => v = r
  | _, _, .string, v, r => v = r
  | _, _, .chars, v, r => v = r
  | _, _, .optional t, v, r => Option.Rel t.Same v r
  | _, _, .required t, v, r => Option.Rel t.Same v r
  | _, _, .vector t, v, r => List.Forall₂ t.Same v r
  | _, _, .list t, v, r => List.Forall₂ t.Same v r
  | _, _, .set _ _ t, v, r => List.Forall₂ t.Same v.items r.items
  | _, _, .stringMap t, v, r =>
      List.Forall₂ (fun x y => x.1 = y.1 ∧ t.Same x.2 y.2) v.items r.items
  | _, _, .map _ _ k t, v, r =>
      List.Forall₂ (fun x y => k.Same x.1 y.1 ∧ t.Same x.2 y.2) v.items r.items
  | _, _, .pair t u, v, r => t.Same v.1 r.1 ∧ u.Same v.2 r.2.1
  | _, _, .sequence ts, v, r => ts.Same v r
  | _, _, .struct ts members members', v, r => ts.Same (members v) (members' r)

def SharedParts.Same : {α ρ : Type} → SharedParts α ρ → α → ρ → Prop
  | _, _, .nil, _, _ => True
  | _, _, .cons t ts, v, r => t.Same v.1 r.1 ∧ ts.Same v.2 r.2

def SharedFields.Same : {names : List Text} → {α ρ : Type} → SharedFields names α ρ → α → ρ → Prop
  | _, _, _, .nil, _, _ => True
  | _, _, _, .cons _ _ t ts, v, r => t.Same v.1 r.1 ∧ ts.Same v.2 r.2
end

/-! ## Required fields that are not set -/

mutual
/-- Some required field is not set that can be reached through struct members, container elements,
sequence elements, and optionals and required fields that are set. -/
def Json.Packable.Missing : {α : Type} → Packable α → α → Prop
  | _, .atomic _, _ => False
  | _, .optional t, v => ∃ x ∈ v, t.Missing x
  | _, .required t, v => v = none ∨ ∃ x ∈ v, t.Missing x
  | _, .vector t, v => ∃ x ∈ v, t.Missing x
  | _, .list t, v => ∃ x ∈ v, t.Missing x
  | _, .set _ t, v => ∃ x ∈ v.items, t.Missing x
  | _, .stringMap t, v => ∃ x ∈ v.items, t.Missing x.2
  | _, .map _ k t, v => ∃ x ∈ v.items, k.Missing x.1 ∨ t.Missing x.2
  | _, .pair t u, v => t.Missing v.1 ∨ u.Missing v.2
  | _, .sequence ts, v => ts.Missing v
  | _, .struct ts members, v => ts.Missing (members v)

def Json.Parts.Missing : {α : Type} → Parts α → α → Prop
  | _, .nil, _ => False
  | _, .cons t ts, v => t.Missing v.1 ∨ ts.Missing v.2

def Json.Fields.Missing : {names : List Text} → {α : Type} → Fields names α → α → Prop
  | _, _, .nil, _ => False
  | _, _, .cons _ _ t ts, v => t.Missing v.1 ∨ ts.Missing v.2
end

theorem Json.Packable.not_missing_of_unset {α : Type} {t : Packable α} {v : α}
    (h : t.unset v = true) : ¬ t.Missing v := by
  cases t with
  | optional t =>
      cases v with
      | none =>
          intro h'
          obtain ⟨x, hx, -⟩ := h'
          cases hx
      | some x => cases h
  | _ => cases h

theorem find_some_imp {xs : List α} {f : α → Option Unset} {P : α → Prop} {u : Unset}
    (h : ∀ x ∈ xs, f x = some u → P x) (hfind : xs.findSome? f = some u) : ∃ x ∈ xs, P x := by
  obtain ⟨x, hx, hfx⟩ := List.exists_of_findSome?_eq_some hfind
  exact ⟨x, hx, h x hx hfx⟩

theorem find_ne_none {xs : List α} {f : α → Option Unset} {P : α → Prop}
    (h : ∀ x ∈ xs, P x → f x ≠ none) : (∃ x ∈ xs, P x) → xs.findSome? f ≠ none := by
  rintro ⟨x, hx, hP⟩ hnone
  exact h x hx hP (List.findSome?_eq_none_iff.mp hnone x hx)

theorem or_some_imp {o o' : Option Unset} {P Q : Prop} {u : Unset} (hP : o = some u → P)
    (hQ : o' = some u → Q) (h : o.or o' = some u) : P ∨ Q :=
  (Option.or_eq_some_iff.mp h).imp hP fun h => hQ h.2

theorem or_ne_none {o o' : Option Unset} {P Q : Prop} (hP : P → o ≠ none) (hQ : Q → o' ≠ none) :
    P ∨ Q → o.or o' ≠ none := by
  intro h hnone
  obtain ⟨ho, ho'⟩ := Option.or_eq_none_iff.mp hnone
  exact h.elim (fun h => hP h ho) fun h => hQ h ho'

mutual
/-- The required field that `json::pack` finds unset is one of those. -/
theorem Json.Packable.missing_of_first {α : Type} (t : Packable α) {v : α} :
    t.firstUnset v = some .required → t.Missing v := by
  intro h
  match t, v, h with
  | .atomic _, _, h => cases h
  | .optional _, none, h => cases h
  | .optional t, some x, h => exact ⟨x, rfl, t.missing_of_first h⟩
  | .required _, none, _ => exact .inl rfl
  | .required t, some x, h => exact .inr ⟨x, rfl, t.missing_of_first h⟩
  | .vector t, v, h => exact find_some_imp (fun x _ => t.missing_of_first) h
  | .list t, v, h => exact find_some_imp (fun x _ => t.missing_of_first) h
  | .set _ t, v, h => exact find_some_imp (fun x _ => t.missing_of_first) h
  | .stringMap t, v, h => exact find_some_imp (fun x _ => t.missing_of_first) h
  | .map _ k t, v, h =>
      exact find_some_imp (fun x _ => or_some_imp k.missing_of_first t.missing_of_first) h
  | .pair t u, v, h => exact or_some_imp t.missing_of_first u.missing_of_first h
  | .sequence ts, v, h => exact ts.missing_of_first h
  | .struct ts members, v, h => exact ts.missing_of_first h

theorem Json.Parts.missing_of_first {α : Type} (ts : Parts α) {v : α} :
    ts.firstUnset v = some .required → ts.Missing v := by
  intro h
  match ts, v, h with
  | .nil, _, h => cases h
  | .cons t ts, v, h => exact or_some_imp t.missing_of_first ts.missing_of_first h

theorem Json.Fields.missing_of_first {names : List Text} {α : Type} (ts : Fields names α) {v : α} :
    ts.firstUnset v = some .required → ts.Missing v := by
  intro h
  match ts, v, h with
  | .nil, _, h => cases h
  | .cons _ _ t ts, v, h =>
      refine or_some_imp (fun h => t.missing_of_first ?_) ts.missing_of_first h
      split_ifs at h
      exact h
end

mutual
/-- Where a required field is not set, `json::pack` finds something unset. -/
theorem Json.Packable.first_of_missing {α : Type} (t : Packable α) {v : α} :
    t.Missing v → t.firstUnset v ≠ none := by
  intro h
  match t, v, h with
  | .optional t, some x, h =>
      obtain ⟨_, ⟨rfl⟩, h⟩ := h
      exact t.first_of_missing h
  | .required _, none, _ => exact Option.some_ne_none _
  | .required t, some x, h =>
      obtain ⟨_, ⟨rfl⟩, h⟩ := h.resolve_left (Option.some_ne_none _)
      exact t.first_of_missing h
  | .vector t, v, h => exact find_ne_none (fun x _ => t.first_of_missing) h
  | .list t, v, h => exact find_ne_none (fun x _ => t.first_of_missing) h
  | .set _ t, v, h => exact find_ne_none (fun x _ => t.first_of_missing) h
  | .stringMap t, v, h => exact find_ne_none (fun x _ => t.first_of_missing) h
  | .map _ k t, v, h =>
      exact find_ne_none (fun x _ => or_ne_none k.first_of_missing t.first_of_missing) h
  | .pair t u, v, h => exact or_ne_none t.first_of_missing u.first_of_missing h
  | .sequence ts, v, h => exact ts.first_of_missing h
  | .struct ts members, v, h => exact ts.first_of_missing h

theorem Json.Parts.first_of_missing {α : Type} (ts : Parts α) {v : α} :
    ts.Missing v → ts.firstUnset v ≠ none := by
  intro h
  match ts, v, h with
  | .cons t ts, v, h => exact or_ne_none t.first_of_missing ts.first_of_missing h

theorem Json.Fields.first_of_missing {names : List Text} {α : Type} (ts : Fields names α) {v : α} :
    ts.Missing v → ts.firstUnset v ≠ none := by
  intro h
  match ts, v, h with
  | .cons _ _ t ts, v, h =>
      refine or_ne_none (fun h => ?_) ts.first_of_missing h
      cases hunset : t.unset v.1 with
      | true => exact absurd h (t.not_missing_of_unset hunset)
      | false =>
          rw [if_neg Bool.false_ne_true]
          exact t.first_of_missing h
end

/-- `json::pack` comes to a required field that is not set if and only if there is one and it does
not come to an optional that is not set before. -/
theorem Json.Packable.first_unset_iff {α : Type} (t : Packable α) (v : α) :
    t.firstUnset v = some .required ↔ t.Missing v ∧ t.firstUnset v ≠ some .optional := by
  constructor
  · intro h
    refine ⟨t.missing_of_first h, ?_⟩
    rw [h]
    decide
  · intro h'
    obtain ⟨hmissing, hoptional⟩ := h'
    cases hfirst : t.firstUnset v with
    | none => exact absurd hfirst (t.first_of_missing hmissing)
    | some u =>
        cases u with
        | optional => exact absurd hfirst hoptional
        | required => rfl

/-! ## The same value in both models -/

theorem forall_set_iff {R : α → ρ → Prop} {P : ρ → Prop} {Q : α → Prop} {xs : List α} {ys : List ρ}
    (hxs : List.Forall₂ R xs ys) (h : ∀ x y, R x y → (P y ↔ ¬ Q x)) :
    (∀ y ∈ ys, P y) ↔ ¬ ∃ x ∈ xs, Q x := by
  induction hxs with
  | nil => exact iff_of_true (fun y hy => absurd hy List.not_mem_nil) (by simp)
  | cons hx _ ih =>
      rw [List.forall_mem_cons, List.exists_mem_cons_iff, not_or, ih, h _ _ hx]

theorem and_set_iff {P P' Q Q' : Prop} (h : P ↔ ¬ Q) (h' : P' ↔ ¬ Q') :
    P ∧ P' ↔ ¬ (Q ∨ Q') := by
  rw [not_or, h, h']

mutual
/-- `raw::pack` looks into no unset required field if and only if none can be reached. -/
theorem Shared.all_set_iff {α ρ : Type} (t : Shared α ρ) {v : α} {r : ρ} :
    t.Same v r → (AllSet t.layout r ↔ ¬ t.packable.Missing v) := by
  intro h
  match t, v, r, h with
  | .bool, v, r, h => exact iff_of_true trivial id
  | .float _ _, v, r, h => exact iff_of_true trivial id
  | .double _ _, v, r, h => exact iff_of_true trivial id
  | .integer _ _ _, v, r, h => exact iff_of_true trivial id
  | .signedInt, v, r, h => exact iff_of_true trivial id
  | .unsignedInt, v, r, h => exact iff_of_true trivial id
  | .string, v, r, h => exact iff_of_true trivial id
  | .chars, v, r, h => exact iff_of_true trivial id
  | .optional t, v, r, h =>
      have h : Option.Rel t.Same v r := h
      cases h with
      | none =>
          refine iff_of_true (fun x hx => by cases hx) ?_
          intro h'
          obtain ⟨x, hx, -⟩ := h'
          cases hx
      | some hsame =>
          have hx := t.all_set_iff hsame
          constructor
          · rintro hset ⟨_, ⟨rfl⟩, hmissing⟩
            exact hx.mp (hset _ rfl) hmissing
          · rintro hmissing _ ⟨rfl⟩
            exact hx.mpr fun h => hmissing ⟨_, rfl, h⟩
  | .required t, v, r, h =>
      have h : Option.Rel t.Same v r := h
      cases h with
      | none =>
          refine iff_of_false ?_ fun h => h (.inl rfl)
          intro h'
          obtain ⟨x, hx, -⟩ := h'
          cases hx
      | some hsame =>
          have hx := t.all_set_iff hsame
          constructor
          · rintro ⟨_, ⟨rfl⟩, hset⟩ (hnone | ⟨_, ⟨rfl⟩, hmissing⟩)
            · cases hnone
            · exact hx.mp hset hmissing
          · intro hmissing
            exact ⟨_, rfl, hx.mpr fun h => hmissing (.inr ⟨_, rfl, h⟩)⟩
  | .vector t, v, r, h => exact forall_set_iff h fun x y => t.all_set_iff
  | .list t, v, r, h => exact forall_set_iff h fun x y => t.all_set_iff
  | .set _ _ t, v, r, h => exact forall_set_iff h fun x y => t.all_set_iff
  | .stringMap t, v, r, h =>
      exact forall_set_iff h fun x y hxy => (and_iff_right trivial).trans (t.all_set_iff hxy.2)
  | .map _ _ k t, v, r, h =>
      exact forall_set_iff h fun x y hxy =>
        and_set_iff (k.all_set_iff hxy.1) (t.all_set_iff hxy.2)
  | .pair t u, v, r, h =>
      exact (and_congr_right fun _ => and_iff_left trivial).trans
        (and_set_iff (t.all_set_iff h.1) (u.all_set_iff h.2))
  | .sequence ts, v, r, h => exact ts.all_set_iff h
  | .struct ts members members', v, r, h => exact ts.all_set_iff h

theorem SharedParts.all_set_iff {α ρ : Type} (ts : SharedParts α ρ) {v : α} {r : ρ} :
    ts.Same v r → (AllSet ts.layout r ↔ ¬ ts.packable.Missing v) := by
  intro h
  match ts, v, r, h with
  | .nil, v, r, h => exact iff_of_true trivial id
  | .cons t ts, v, r, h => exact and_set_iff (t.all_set_iff h.1) (ts.all_set_iff h.2)

theorem SharedFields.all_set_iff {names : List Text} {α ρ : Type} (ts : SharedFields names α ρ)
    {v : α} {r : ρ} : ts.Same v r → (AllSet ts.layout r ↔ ¬ ts.packable.Missing v) := by
  intro h
  match ts, v, r, h with
  | .nil, v, r, h => exact iff_of_true trivial id
  | .cons _ _ t ts, v, r, h => exact and_set_iff (t.all_set_iff h.1) (ts.all_set_iff h.2)
end

/-! ## Refusing -/

/-- How a call of an encoder ends. -/
inductive Ending where
  | packed
  /-- It throws `required_field_not_set`. -/
  | refused
  /-- It looks into a required field that is not set. -/
  | looked
  | failed

/-- How a call of `json::pack` ends, which looks into no required field that is not set. -/
def Ending.ofJson : Except Json.Failure Value → Ending
  | .ok _ => .packed
  | .error (.threw (.thrown .requiredFieldNotSet)) => .refused
  | .error _ => .failed

/-- How a call of `raw::pack_vec` ends, which throws nothing. -/
def Ending.ofRaw : Option (Except Fault Text) → Ending
  | none => .looked
  | some (.ok _) => .packed
  | some (.error _) => .failed

/-- The call throws exactly where a required field is not set, and looks into none. -/
def Ending.Right (missing : Prop) (e : Ending) : Prop := (e = .refused ↔ missing) ∧ e ≠ .looked

theorem Ending.of_json_refused {r : Except Json.Failure Value} :
    Ending.ofJson r = .refused ↔ r = .error (.threw (.thrown .requiredFieldNotSet)) := by
  constructor
  · intro h
    unfold Ending.ofJson at h
    split at h
    · cases h
    · rfl
    · cases h
  · intro h
    rw [h]
    rfl

theorem Ending.of_json_ne_looked (r : Except Json.Failure Value) : Ending.ofJson r ≠ .looked := by
  unfold Ending.ofJson
  split <;> exact Ending.noConfusion

theorem Ending.of_raw_ne_refused (r : Option (Except Fault Text)) : Ending.ofRaw r ≠ .refused := by
  unfold Ending.ofRaw
  split <;> exact Ending.noConfusion

theorem Ending.of_raw_looked {r : Option (Except Fault Text)} :
    Ending.ofRaw r = .looked ↔ r = none := by
  unfold Ending.ofRaw
  split <;> simp

/-- The first pass, or the second, looks into an unset required field. -/
theorem Raw.pack_vec_none_iff (t : Layout .single ρ) (s : Text) (v : ρ) :
    packVec t s v = none ↔ ¬ AllSet t v := by
  constructor
  · intro h hset
    obtain ⟨ps, hps⟩ := (pack_some_iff .pack t (⟨0⟩ : SizeStream) v).mpr hset
    obtain ⟨ds, hds⟩ := (pack_some_iff .pack t
      (Except.ok (Datastream.new (resize ps.size.toNat 0 s)) : BufferStream) v).mpr hset
    simp only [packVec, hps, Option.bind_eq_bind, Option.bind_some, hds] at h
    split_ifs at h
  · intro hset
    cases hps : pack .pack t (⟨0⟩ : SizeStream) v with
    | none =>
        unfold packVec
        rw [hps]
        rfl
    | some ps => exact absurd ((pack_some_iff .pack t _ v).mp ⟨ps, hps⟩) hset

/-- `json::pack` refuses as it should unless it comes to an optional that is not set before a
required field that is not, and `raw::pack_vec` only where all required fields are set. -/
theorem required_refused_iff (t : Shared α ρ) {v : α} {r : ρ} (h : t.Same v r) (slot : Value)
    (s : Text) :
    (Ending.Right (t.packable.Missing v) (.ofJson (t.packable.pack slot v)) ↔
      (t.packable.Missing v → t.packable.firstUnset v ≠ some .optional)) ∧
    (Ending.Right (t.packable.Missing v) (.ofRaw (packVec t.layout s r)) ↔
      ¬ t.packable.Missing v) ∧
    (Ending.Right (t.packable.Missing v) (.ofJson (t.packable.pack slot v)) ∧
        Ending.Right (t.packable.Missing v) (.ofRaw (packVec t.layout s r)) ↔
      ¬ t.packable.Missing v) := by
  have hjson : Ending.Right (t.packable.Missing v) (.ofJson (t.packable.pack slot v)) ↔
      (t.packable.Missing v → t.packable.firstUnset v ≠ some .optional) := by
    have hthrows : t.packable.pack slot v = .error (.threw (.thrown .requiredFieldNotSet)) ↔
        t.packable.firstUnset v = some .required := by
      rw [← blame_error_iff, t.packable.blame_pack]
      cases t.packable.firstUnset v with
      | none => simp
      | some u => cases u <;> decide
    rw [Ending.Right, and_iff_left (Ending.of_json_ne_looked _), Ending.of_json_refused, hthrows,
      t.packable.first_unset_iff]
    exact ⟨fun h hmissing => (h.mpr hmissing).2, fun h => and_iff_left_of_imp h⟩
  have hraw : Ending.Right (t.packable.Missing v) (.ofRaw (packVec t.layout s r)) ↔
      ¬ t.packable.Missing v := by
    rw [Ending.Right, ne_eq, Ending.of_raw_looked, Raw.pack_vec_none_iff, t.all_set_iff h, not_not,
      and_iff_right_iff_imp]
    intro hmissing
    exact iff_of_false (Ending.of_raw_ne_refused _) hmissing
  refine ⟨hjson, hraw, ?_⟩
  rw [hjson, hraw, and_iff_right_iff_imp]
  exact fun h hmissing => absurd hmissing h

/-- A vector with a required element that is set. -/
theorem required_refused_set :
    (∃ jsv, Packable.pack (.vector (.required (.atomic .bool))) .null [some true] = .ok jsv) ∧
      (packVec (.container (.required .bool)) [] [some true]).isSome = true := by
  have hset : ¬ (Shared.vector (.required .bool)).packable.Missing [some true] := by
    intro h
    obtain ⟨x, hx, hmissing⟩ := h
    obtain rfl := List.mem_singleton.mp hx
    obtain ⟨_, ⟨rfl⟩, hfalse⟩ := hmissing.resolve_left (Option.some_ne_none true)
    exact hfalse
  have hsame : (Shared.vector (.required .bool)).Same [some true] [some true] :=
    .cons (.some rfl) .nil
  obtain ⟨-, hraw⟩ := (required_refused_iff _ hsame .null []).2.2.mpr hset
  refine ⟨⟨_, rfl⟩, ?_⟩
  have hlooks := mt Ending.of_raw_looked.mpr hraw.2
  exact Option.isSome_iff_ne_none.mpr hlooks

/-- A required field that is not set: `json::pack` throws, and `raw::pack_vec` looks into it. -/
theorem required_looked_into :
    (Shared.required .bool).packable.Missing none ∧
      Ending.ofJson ((Shared.required .bool).packable.pack .null none) = .refused ∧
      Ending.ofRaw (packVec (Shared.required .bool).layout [] none) = .looked ∧
      ¬ Ending.Right ((Shared.required .bool).packable.Missing none)
        (.ofRaw (packVec (Shared.required .bool).layout [] none)) := by
  refine ⟨.inl rfl, rfl, rfl, ?_⟩
  exact fun h => h.2 rfl

end BoostRpc
