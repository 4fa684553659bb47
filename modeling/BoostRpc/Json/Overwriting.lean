import BoostRpc.Json.ReadBack

/-!
# Unpacking over an old value

`json::unpack` of a vector appends to what the target holds, and a member of a struct of type
`boost::optional` keeps what it holds where the value has none. `unpack_over_iff` says for which
values and which targets the value alone is there afterwards.
-/

namespace BoostRpc.Json

open Ordered Raw Rounding Base64

variable {α β γ : Type}

/-! ## Types of their own overload -/

/-- What comes back from the slot. -/
def Atomic.Back : {α : Type} → Atomic α → Value → α → Prop
  | _, .value, _, _ => True
  | _, .bool, _, _ => True
  | _, .float, _, _ => False
  | _, .double, _, _ => True
  | _, .integer i _, _, v => Format.binary64.Represents (i.toInt v)
  | _, .signedInt, _, _ => True
  | _, .unsignedInt, _, _ => True
  | _, .string, _, _ => True
  | _, .chars, slot, v => v ≠ [] ∧ Fits v ∨ v = [] ∧ ∃ text, slot = .string text ∧ Blank text

theorem Atomic.back_iff (p : Atomic α) (slot : Value) (v : α) :
    p.unpack (p.pack slot v) = .ok v ↔ p.Back slot v := by
  cases p with
  | float => exact iff_of_false (fun h => by cases h) id
  | integer i exact => exact integer_back_iff exact slot v
  | signedInt =>
      refine (integer_back_iff narrow_int32.exact slot v).trans (iff_of_true ?_ trivial)
      exact Format.binary64.represents_int (by decide) (narrow_int32.small v)
  | unsignedInt =>
      refine (integer_back_iff narrow_uint32.exact slot v).trans (iff_of_true ?_ trivial)
      exact Format.binary64.represents_int (by decide) (narrow_uint32.small v)
  | chars => exact survives_iff slot v
  | _ => exact iff_of_true rfl trivial

/-- What comes out of a text that was encoded is short enough to be encoded again. -/
theorem fits_of_decoded {bytes bytes' : Text}
    (h : base64Decode (base64Encode bytes (UInt32.ofNat bytes.length)) = some bytes') :
    Fits bytes' := by
  have hsize : (UInt32.ofNat bytes.length).toNat = bytes.length % 2 ^ 32 := UInt32.toNat_ofNat'
  rw [encode_eq, hsize] at h
  have hlength := length_encoded (bytes.take (bytes.length % 2 ^ 32))
  rw [List.length_take] at hlength
  generalize bytes.take (bytes.length % 2 ^ 32) = front at h hlength
  have hmod : bytes.length % 2 ^ 32 < 2 ^ 32 := Nat.mod_lt _ (by decide)
  obtain ⟨-, hcount⟩ := base64_decode_length h
  have hn : inLen (encoded front) = _ := in_len_eq _
  rw [Int.bmod_def] at hn
  unfold Fits
  by_cases hlow : (encoded front).length < 2 ^ 31
  · have := hcount (by omega)
    omega
  · by_cases hhigh : (encoded front).length < 2 ^ 32
    · rw [decode_encoded_overflow (Nat.le_of_not_lt hlow) hhigh] at h
      cases h
    · have := hcount (by omega)
      omega

/-- What came back once comes back unchanged. -/
theorem Atomic.steady (p : Atomic α) {x y z : α} (hxy : p.unpack (p.pack .null x) = .ok y)
    (hyz : p.unpack (p.pack .null y) = .ok z) : z = y := by
  have hback : p.Back .null y → z = y := fun h =>
    Except.ok.inj (hyz.symm.trans ((p.back_iff .null y).mpr h))
  cases p with
  | float => cases hxy
  | integer i exact =>
      apply hback
      obtain ⟨r, hr⟩ := nearest_integer (i.toInt x)
      have hx : unpackInteger i (packInteger i .null x) = .ok y := hxy
      rw [unpack_packed_integer hr] at hx
      split_ifs at hx with hrange
      obtain rfl := Except.ok.inj hx
      show Format.binary64.Represents (i.toInt (i.ofInt r))
      rw [exact r hrange.1 hrange.2, ← hr]
      exact Format.represents_nearest _ _
  | chars =>
      apply hback
      refine .inl ⟨?_, ?_⟩
      · rintro rfl
        cases hyz
      · have hx : unpackBlob (packBlob .null x) = .ok y := hxy
        unfold packBlob at hx
        split_ifs at hx
        · exact fits_of_decoded (unpack_string_iff.mp hx)
        · cases hx
  | _ => exact hback trivial

/-! ## Containers -/

/-- What follows for the members of the first list follows elementwise. -/
theorem forall₂_imp_mem {R S : α → β → Prop} {xs : List α} {ys : List β}
    (h : ∀ x ∈ xs, ∀ y, R x y → S x y) (hxy : List.Forall₂ R xs ys) : List.Forall₂ S xs ys := by
  have hmem : List.Forall₂ (fun x y => x ∈ xs ∧ R x y) xs ys :=
    (List.forall₂_and_left xs ys).mpr ⟨fun x hx => hx, hxy⟩
  exact hmem.imp fun x y hxy => h x hxy.1 y hxy.2

theorem eq_of_forall₂ {R : α → α → Prop} {xs ys : List α} (h : ∀ x ∈ xs, ∀ y, R x y → y = x)
    (hxy : List.Forall₂ R xs ys) : ys = xs := by
  have heq : List.Forall₂ (fun x y => x = y) xs ys :=
    forall₂_imp_mem (fun x hx y hxy => (h x hx y hxy).symm) hxy
  rw [List.forall₂_eq_eq_eq] at heq
  exact heq.symm

/-- What holds of the results of all elements. -/
theorem forall_of_forall₂ {R : α → β → Prop} {P : β → Prop} {xs : List α} {ys : List β}
    (h : ∀ x y, R x y → P y) (hxy : List.Forall₂ R xs ys) : ∀ y ∈ ys, P y := by
  induction hxy with
  | nil => exact fun y hy => absurd hy (List.not_mem_nil)
  | cons hx _ ih => exact List.forall_mem_cons.mpr ⟨h _ _ hx, ih⟩

/-- Steps that settle at once settle elementwise. -/
theorem forall₂_steady {R S : α → α → Prop} {xs ys zs : List α}
    (h : ∀ x y z, R x y → S y z → z = y) (hxy : List.Forall₂ R xs ys)
    (hyz : List.Forall₂ S ys zs) : zs = ys := by
  have hsteady : ∀ y ∈ ys, ∀ z, S y z → z = y :=
    forall_of_forall₂ (fun x y hxy z => h x y z hxy) hxy
  exact eq_of_forall₂ hsteady hyz

/-! ## What comes back twice -/

theorem Packable.unset_construct {α : Type} {t : Packable α} {x : α} (h : t.unset x = true)
    (memory : Memory) : t.construct memory = x := by
  cases t with
  | optional t =>
      cases x with
      | none => rfl
      | some x => cases h
  | _ => cases h

/-- What was packed is set. -/
theorem Packable.set_of_returns {memory : Memory} {α : Type} {t : Packable α} {slot : Value}
    {w x y : α} (h : t.Returns memory slot w x y) : t.unset y = false := by
  cases t with
  | optional t =>
      obtain ⟨_, y, rfl, rfl, _⟩ := h
      rfl
  | _ => rfl

mutual
/-- What came back once comes back unchanged. -/
theorem Packable.steady (memory : Memory) {fill fill' : Memory} {α : Type} (t : Packable α)
    {x y z : α} : t.Returns memory .null (t.construct fill) x y →
      t.Returns memory .null (t.construct fill') y z → z = y := by
  intro hxy hyz
  match t, x, y, z, hxy, hyz with
  | .atomic p, x, y, z, hxy, hyz => exact p.steady hxy hyz
  | .optional t, x, y, z, hxy, hyz =>
      obtain ⟨_, y, rfl, rfl, hxy⟩ := hxy
      obtain ⟨_, z, ⟨rfl⟩, rfl, hyz⟩ := hyz
      rw [t.steady memory hxy hyz]
  | .required t, x, y, z, hxy, hyz =>
      obtain ⟨_, y, rfl, rfl, hxy⟩ := hxy
      obtain ⟨_, z, ⟨rfl⟩, rfl, hyz⟩ := hyz
      rw [t.steady memory hxy hyz]
  | .vector t, x, y, z, hxy, hyz =>
      obtain ⟨-, ys, rfl, hys⟩ := hxy
      obtain ⟨-, zs, rfl, hzs⟩ := hyz
      exact forall₂_steady (fun x y z => t.steady memory) hys hzs
  | .list _, _, _, _, hxy, _ => exact hxy.elim
  | .set _ _, _, _, _, hxy, _ => exact hxy.elim
  | .stringMap t, x, y, z, hxy, hyz =>
      refine Items.ext (forall₂_steady (fun x y z hxy hyz => ?_) hxy.2 hyz.2)
      exact Prod.ext hyz.1 (t.steady memory hxy.2 hyz.2)
  | .map less k t, x, y, z, hxy, hyz =>
      obtain ⟨-, ys, rfl, hys⟩ := hxy
      obtain ⟨-, zs, rfl, hzs⟩ := hyz
      -- all that was assigned is steady, so that all that is there afterwards is
      have hsteady := forall_assigned less
        (P := fun y => ∀ z, k.Returns memory .null (k.construct .zero) y z → z = y)
        (Q := fun y => ∀ z, t.Returns memory .null (t.construct .zero) y z → z = y)
        (forall_of_forall₂ (fun x y hxy => ⟨fun z => k.steady memory hxy.1,
          fun z => t.steady memory hxy.2⟩) hys)
      have hzs : zs = _ := eq_of_forall₂ (fun y hy z hyz =>
        Prod.ext ((hsteady y hy).1 z.1 hyz.1) ((hsteady y hy).2 z.2 hyz.2)) hzs
      rw [hzs, assign_all_items]
  | .pair t u, x, y, z, hxy, hyz =>
      exact Prod.ext (t.steady memory hxy.1 hyz.1) (u.steady memory hxy.2 hyz.2)
  | .sequence ts, x, y, z, hxy, hyz => exact ts.steady memory hxy hyz
  | .struct ts members, x, y, z, hxy, hyz =>
      unfold Packable.Returns Packable.construct at hxy hyz
      rw [Equiv.apply_symm_apply] at hxy hyz
      exact members.injective (ts.steady memory hxy hyz)

theorem Parts.steady (memory : Memory) {fill fill' : Memory} {α : Type} (ts : Parts α)
    {x y z : α} : ts.Returns memory (ts.construct fill) x y →
      ts.Returns memory (ts.construct fill') y z → z = y := by
  intro hxy hyz
  match ts, x, y, z, hxy, hyz with
  | .nil, x, y, z, hxy, hyz => rfl
  | .cons t ts, x, y, z, hxy, hyz =>
      exact Prod.ext (t.steady memory hxy.1 hyz.1) (ts.steady memory hxy.2 hyz.2)

theorem Fields.steady (memory : Memory) {fill fill' : Memory} {names : List Text} {α : Type}
    (ts : Fields names α) {x y z : α} : ts.Returns memory (ts.construct fill) x y →
      ts.Returns memory (ts.construct fill') y z → z = y := by
  intro hxy hyz
  match ts, x, y, z, hxy, hyz with
  | .nil, x, y, z, hxy, hyz => rfl
  | .cons _ _ t ts, x, y, z, hxy, hyz =>
      refine Prod.ext ?_ (ts.steady memory hxy.2 hyz.2)
      have hy := hxy.1
      have hz := hyz.1
      cases hunset : t.unset x.1 with
      | true =>
          rw [hunset, if_pos rfl] at hy
          have hy : y.1 = t.construct fill := hy
          rw [t.unset_construct hunset] at hy
          rw [hy, hunset, if_pos rfl] at hz
          exact (show z.1 = t.construct fill' from hz).trans
            ((t.unset_construct hunset fill').trans hy.symm)
      | false =>
          rw [hunset, if_neg (by simp)] at hy
          rw [t.set_of_returns hy, if_neg (by simp)] at hz
          exact t.steady memory hy hz
end

/-! ## What comes back over an old value -/

mutual
/-- What the slot holds afterwards can be read, and is the value itself. -/
def Packable.Back : {α : Type} → Packable α → Value → α → Prop
  | _, .atomic p, slot, v => p.Back slot v
  | _, .optional t, slot, v => ∃ x, v = some x ∧ t.Back slot x
  | _, .required t, slot, v => ∃ x, v = some x ∧ t.Back slot x
  | _, .vector t, _, v => v.length < 2 ^ 32 ∧ ∀ x ∈ v, t.Back .null x
  -- Their overloads of `unpack` do not compile.
  | _, .list _, _, _ => False
  | _, .set _ _, _, _ => False
  | _, .stringMap t, _, v => v.items.length < 2 ^ 32 ∧ ∀ x ∈ v.items, t.Back .null x.2
  | _, .map _ k t, _, v =>
      v.items.length < 2 ^ 32 ∧ ∀ x ∈ v.items, k.Back .null x.1 ∧ t.Back .null x.2
  | _, .pair t u, _, v => t.Back .null v.1 ∧ u.Back .null v.2
  | _, .sequence ts, _, v => ts.Back v
  | _, .struct ts members, _, v => ts.Back (members v)

def Parts.Back : {α : Type} → Parts α → α → Prop
  | _, .nil, _ => True
  | _, .cons t ts, v => t.Back .null v.1 ∧ ts.Back v.2

def Fields.Back : {names : List Text} → {α : Type} → Fields names α → α → Prop
  | _, _, .nil, _ => True
  | _, _, .cons _ _ t ts, v => (t.unset v.1 = true ∨ t.Back .null v.1) ∧ ts.Back v.2
end

mutual
/-- The target `w` holds nothing that the value `v` would leave: where it is unpacked in place, its
vectors are empty, and its optional members that `v` does not have are unset. -/
def Packable.Emptied : {α : Type} → Packable α → (w v : α) → Prop
  | _, .vector _, w, _ => w = []
  | _, .pair t u, w, v => t.Emptied w.1 v.1 ∧ u.Emptied w.2 v.2
  | _, .sequence ts, w, v => ts.Emptied w v
  | _, .struct ts members, w, v => ts.Emptied (members w) (members v)
  | _, _, _, _ => True

def Parts.Emptied : {α : Type} → Parts α → (w v : α) → Prop
  | _, .nil, _, _ => True
  | _, .cons t ts, w, v => t.Emptied w.1 v.1 ∧ ts.Emptied w.2 v.2

def Fields.Emptied : {names : List Text} → {α : Type} → Fields names α → (w v : α) → Prop
  | _, _, .nil, _, _ => True
  | _, _, .cons _ _ t ts, w, v =>
      (if t.unset v.1 then t.unset w.1 = true else t.Emptied w.1 v.1) ∧ ts.Emptied w.2 v.2
end

mutual
/-- A default-constructed target holds nothing. -/
theorem Packable.emptied_construct (memory : Memory) {α : Type} (t : Packable α) (v : α) :
    t.Emptied (t.construct memory) v := by
  match t, v with
  | .vector _, _ => rfl
  | .pair t u, v => exact ⟨t.emptied_construct .zero v.1, u.emptied_construct .zero v.2⟩
  | .sequence ts, v => exact ts.emptied_construct memory v
  | .struct ts members, v =>
      unfold Packable.Emptied Packable.construct
      rw [Equiv.apply_symm_apply]
      exact ts.emptied_construct memory (members v)
  | .atomic _, _ => trivial
  | .optional _, _ => trivial
  | .required _, _ => trivial
  | .list _, _ => trivial
  | .set _ _, _ => trivial
  | .stringMap _, _ => trivial
  | .map _ _ _, _ => trivial

theorem Parts.emptied_construct (memory : Memory) {α : Type} (ts : Parts α) (v : α) :
    ts.Emptied (ts.construct memory) v := by
  match ts, v with
  | .nil, _ => trivial
  | .cons t ts, v => exact ⟨t.emptied_construct memory v.1, ts.emptied_construct memory v.2⟩

theorem Fields.emptied_construct (memory : Memory) {names : List Text} {α : Type}
    (ts : Fields names α) (v : α) : ts.Emptied (ts.construct memory) v := by
  match ts, v with
  | .nil, _ => trivial
  | .cons _ _ t ts, v =>
      refine ⟨?_, ts.emptied_construct memory v.2⟩
      split_ifs with hunset
      · exact (congrArg t.unset (t.unset_construct hunset memory)).trans hunset
      · exact t.emptied_construct memory v.1
end

/-- Where the keys of the map are there again, each is what came back for itself. -/
theorem items_settle {κ ν : Type} {less : Compare κ} {P : κ → κ → Prop} {Q : ν → ν → Prop}
    (hsteady : ∀ x y z, P x y → P y z → z = y) {v : OrderedMap less ν} {ys : List (κ × ν)}
    (hys : List.Forall₂ (fun x y => P x.1 y.1 ∧ Q x.2 y.2) v.items ys)
    (hkeys : (assignAll (.empty : OrderedMap less ν) ys).items.map Prod.fst =
      v.items.map Prod.fst) :
    (assignAll (.empty : OrderedMap less ν) ys).items = ys ∧
      List.Forall₂ (fun x y => y.1 = x.1 ∧ P x.1 x.1 ∧ Q x.2 y.2) v.items ys := by
  have hfixed : ∀ y ∈ (assignAll (.empty : OrderedMap less ν) ys).items,
      (∀ z, P y.1 z → z = y.1) ∧ True :=
    forall_assigned less (P := fun y => ∀ z, P y z → z = y) (Q := fun _ => True)
      (forall_of_forall₂ (fun x y hxy => ⟨fun z => hsteady _ _ _ hxy.1, trivial⟩) hys)
  have hself : ∀ x ∈ v.items, ∀ z, P x.1 z → z = x.1 := by
    intro x hx
    have hmem : x.1 ∈ v.items.map Prod.fst := List.mem_map_of_mem hx
    rw [← hkeys] at hmem
    obtain ⟨y, hy, hyx⟩ := List.mem_map.mp hmem
    rw [← hyx]
    exact (hfixed y hy).1
  have hall := forall₂_imp_mem (S := fun x y => y.1 = x.1 ∧ P x.1 x.1 ∧ Q x.2 y.2)
    (fun x hx y hxy => ⟨hself x hx _ hxy.1, hself x hx _ hxy.1 ▸ hxy.1, hxy.2⟩) hys
  refine ⟨?_, hall⟩
  refine items_assign_all (m := .empty) ?_
  show ys.Pairwise fun x y => less.lt x.1 y.1 = true
  rw [← List.pairwise_map (f := Prod.fst) (R := fun x y => less.lt x y = true), keys_packed hall]
  exact keys_ascend v

/-- An optional that is set, or a required field. -/
theorem returns_some_iff {R : α → α → Prop} {P : α → Prop} {v : Option α}
    (h : ∀ x, R x x ↔ P x) :
    (∃ x y, v = some x ∧ v = some y ∧ R x y) ↔ ∃ x, v = some x ∧ P x := by
  constructor
  · intro hboth
    obtain ⟨x, y, rfl, hy, hR⟩ := hboth
    obtain rfl := Option.some.inj hy
    exact ⟨x, rfl, (h x).mp hR⟩
  · intro hset
    obtain ⟨x, rfl, hx⟩ := hset
    exact ⟨x, x, rfl, rfl, (h x).mpr hx⟩

mutual
/-- A value comes back over an old one if and only if it comes back at all and the old one leaves
nothing. -/
theorem Packable.returns_self_iff (memory : Memory) {α : Type} (t : Packable α) (slot : Value)
    (w v : α) : t.Returns memory slot w v v ↔ t.Back slot v ∧ t.Emptied w v := by
  match t, w, v with
  | .atomic p, w, v => exact (p.back_iff slot v).trans (and_iff_left trivial).symm
  | .optional t, w, v =>
      refine Iff.trans (returns_some_iff fun x => ?_) (and_iff_left trivial).symm
      exact (t.returns_self_iff memory slot _ x).trans
        (and_iff_left (t.emptied_construct .zero x))
  | .required t, w, v =>
      refine Iff.trans (returns_some_iff fun x => ?_) (and_iff_left trivial).symm
      exact (t.returns_self_iff memory slot _ x).trans
        (and_iff_left (t.emptied_construct .zero x))
  | .vector t, w, v =>
      have hitem : ∀ x, t.Returns memory .null (t.construct memory) x x ↔ t.Back .null x :=
        fun x => (t.returns_self_iff memory .null _ x).trans
          (and_iff_left (t.emptied_construct memory x))
      constructor
      · intro h'
        obtain ⟨hsize, ys, hv, hys⟩ := h'
        have hw : w = [] := by
          have hlength := congrArg List.length hv
          rw [List.length_append, hys.length_eq] at hlength
          exact List.length_eq_zero_iff.mp (by omega)
        rw [hw, List.nil_append] at hv
        rw [← hv, List.forall₂_same] at hys
        exact ⟨⟨hsize, fun x hx => (hitem x).mp (hys x hx)⟩, hw⟩
      · intro h'
        obtain ⟨⟨hsize, hback⟩, rfl⟩ := h'
        exact ⟨hsize, v, rfl, List.forall₂_same.mpr fun x hx => (hitem x).mpr (hback x hx)⟩
  | .list _, _, _ => exact (iff_of_false id fun h => h.1)
  | .set _ _, _, _ => exact (iff_of_false id fun h => h.1)
  | .stringMap t, w, v =>
      refine Iff.trans ?_ (and_iff_left trivial).symm
      refine and_congr_right fun _ => List.forall₂_same.trans (forall₂_congr fun x _ => ?_)
      refine (and_iff_right rfl).trans ((t.returns_self_iff memory .null _ x.2).trans ?_)
      exact and_iff_left (t.emptied_construct .zero x.2)
  | .map less k t, w, v =>
      have hkey : ∀ x, k.Returns memory .null (k.construct .zero) x x ↔ k.Back .null x :=
        fun x => (k.returns_self_iff memory .null _ x).trans
          (and_iff_left (k.emptied_construct .zero x))
      have hitem : ∀ x, t.Returns memory .null (t.construct .zero) x x ↔ t.Back .null x :=
        fun x => (t.returns_self_iff memory .null _ x).trans
          (and_iff_left (t.emptied_construct .zero x))
      refine Iff.trans (and_congr_right fun _ => ?_) (and_iff_left trivial).symm
      constructor
      · intro h'
        obtain ⟨ys, hv, hys⟩ := h'
        obtain ⟨hitems, hall⟩ := items_settle (fun x y z => k.steady memory) hys (hv ▸ rfl)
        rw [← hv] at hitems
        rw [← hitems, List.forall₂_same] at hall
        exact fun x hx => ⟨(hkey x.1).mp (hall x hx).2.1, (hitem x.2).mp (hall x hx).2.2⟩
      · intro hback
        exact ⟨v.items, (assign_all_items v).symm, List.forall₂_same.mpr fun x hx =>
          ⟨(hkey x.1).mpr (hback x hx).1, (hitem x.2).mpr (hback x hx).2⟩⟩
  | .pair t u, w, v =>
      exact (and_congr (t.returns_self_iff memory .null w.1 v.1)
        (u.returns_self_iff memory .null w.2 v.2)).trans and_and_and_comm
  | .sequence ts, w, v => exact ts.returns_self_iff memory w v
  | .struct ts members, w, v => exact ts.returns_self_iff memory (members w) (members v)

theorem Parts.returns_self_iff (memory : Memory) {α : Type} (ts : Parts α) (w v : α) :
    ts.Returns memory w v v ↔ ts.Back v ∧ ts.Emptied w v := by
  match ts, w, v with
  | .nil, _, _ => exact iff_of_true trivial ⟨trivial, trivial⟩
  | .cons t ts, w, v =>
      exact (and_congr (t.returns_self_iff memory .null w.1 v.1)
        (ts.returns_self_iff memory w.2 v.2)).trans and_and_and_comm

theorem Fields.returns_self_iff (memory : Memory) {names : List Text} {α : Type}
    (ts : Fields names α) (w v : α) : ts.Returns memory w v v ↔ ts.Back v ∧ ts.Emptied w v := by
  match ts, w, v with
  | .nil, _, _ => exact iff_of_true trivial ⟨trivial, trivial⟩
  | .cons _ _ t ts, w, v =>
      refine (and_congr ?_ (ts.returns_self_iff memory w.2 v.2)).trans and_and_and_comm
      cases hunset : t.unset v.1 with
      | true =>
          rw [if_pos rfl, if_pos rfl]
          refine Iff.trans ?_ (and_iff_right (.inl rfl)).symm
          constructor
          · intro h
            rw [← h]
            exact hunset
          · intro h
            exact (t.unset_construct hunset .zero).symm.trans (t.unset_construct h .zero)
      | false =>
          rw [if_neg (by simp), if_neg (by simp)]
          refine (t.returns_self_iff memory .null w.1 v.1).trans (and_congr_left fun _ => ?_)
          exact (or_iff_right (by simp)).symm
end

/-- Over a default-constructed target a value comes back if it comes back at all. -/
theorem Packable.returns_construct_iff (memory fill : Memory) {α : Type} (t : Packable α)
    (slot : Value) (v : α) : t.Returns memory slot (t.construct fill) v v ↔ t.Back slot v :=
  (t.returns_self_iff memory slot _ v).trans (and_iff_left (t.emptied_construct fill v))

/-- A value that was packed is there after it was unpacked over an old one if and only if it can be
read from what was packed and the old one holds nothing that it would leave. -/
theorem unpack_over_iff (memory : Memory) {α : Type} (t : Packable α) {slot jsv : Value} {v : α}
    (hpack : t.pack slot v = .ok jsv) (w : α) :
    t.unpack memory jsv w = .ok v ↔ t.Back slot v ∧ t.Emptied w v :=
  (t.unpack_packed_iff memory hpack w v).trans (t.returns_self_iff memory slot w v)

/-- A vector as the second part of a pair, over a pair with an empty vector. -/
theorem unpack_over_empty :
    Packable.unpack .zero (.pair (.atomic .string) (.vector (.atomic .bool)))
      (.object [(str "first", .string (str "a")), (str "second", .array [.bool true])])
        (str "b", []) = .ok (str "a", [true]) := by
  have hpack : Packable.pack (.pair (.atomic .string) (.vector (.atomic .bool))) .null
      (str "a", [true]) = .ok (.object [(str "first", .string (str "a")),
        (str "second", .array [.bool true])]) := rfl
  refine (unpack_over_iff .zero _ hpack _).mpr ⟨⟨trivial, ?_⟩, trivial, rfl⟩
  exact ⟨by decide, fun _ _ => trivial⟩

/-- What the vector held is still in front of what is unpacked. -/
theorem stale_element :
    Packable.pack (.vector (.atomic .bool)) .null [true] = .ok (.array [.bool true]) ∧
      Packable.unpack .zero (.vector (.atomic .bool)) (.array [.bool true]) [false] =
        .ok [false, true] ∧
      Packable.unpack .zero (.vector (.atomic .bool)) (.array [.bool true]) [false] ≠
        .ok [true] := by
  refine ⟨rfl, rfl, ?_⟩
  intro h
  have hlist : [false, true] = [true] := Except.ok.inj h
  cases hlist

end BoostRpc.Json
