import BoostRpc.Json.Packable

/-!
# What comes back from `json::pack`

`Packable.Returns` says, without the JSON value in between, what `json::unpack` makes of a target
out of what `json::pack` made of a value; `Packable.unpack_packed_iff` connects it to the two
functions.
-/

namespace BoostRpc.Json

open Ordered Raw

variable {α β γ : Type}

/-! ## Assigning to a map -/

/-- The map after the assignments `value[p.first] = p.second`. -/
def assignAll {κ ν : Type} {less : Compare κ} (m : OrderedMap less ν) (ps : List (κ × ν)) :
    OrderedMap less ν :=
  ps.foldl (fun m p => OrderedMap.assign m p.1 p.2) m

section

variable {κ ν : Type} {less : Compare κ}

/-- A key above all others gets the last item. -/
theorem items_assign_last {m : OrderedMap less ν} {key : κ}
    (h : ∀ y ∈ m.items, less.lt y.1 key = true) (x : ν) :
    (OrderedMap.assign m key x).items = m.items ++ [(key, x)] :=
  alter_list_last h

/-- Ascending keys get their items in a row. -/
theorem items_assign_all {m : OrderedMap less ν} {ps : List (κ × ν)}
    (h : (m.items ++ ps).Pairwise fun x y => less.lt x.1 y.1 = true) :
    (assignAll m ps).items = m.items ++ ps := by
  induction ps generalizing m with
  | nil => exact (List.append_nil _).symm
  | cons p ps ih =>
      have hlast : (OrderedMap.assign m p.1 p.2).items = m.items ++ [p] :=
        items_assign_last
          (fun y hy => (List.pairwise_append.mp h).2.2 y hy p List.mem_cons_self) p.2
      have hrest := ih (m := OrderedMap.assign m p.1 p.2)
        (by rw [hlast, List.append_assoc]; exact h)
      rw [hlast, List.append_assoc] at hrest
      exact hrest

/-- The items of a map, assigned to the empty one, make the map. -/
theorem assign_all_items (m : OrderedMap less ν) : assignAll .empty m.items = m :=
  Items.ext (items_assign_all (m := .empty) m.sorted)

/-- What holds of all keys, and of all mapped values, holds after an assignment where it holds of
what is assigned. -/
theorem forall_assign {P : κ → Prop} {Q : ν → Prop} {m : OrderedMap less ν} {key : κ} {x : ν}
    (hm : ∀ y ∈ m.items, P y.1 ∧ Q y.2) (hkey : P key) (hx : Q x) :
    ∀ y ∈ (OrderedMap.assign m key x).items, P y.1 ∧ Q y.2 := by
  have hlist : ∀ zs : List (κ × ν), (∀ y ∈ zs, P y.1 ∧ Q y.2) →
      ∀ y ∈ alterList less Prod.fst (key, x) (fun e => (e.1, x)) zs, P y.1 ∧ Q y.2 := by
    intro zs
    induction zs with
    | nil =>
        intro _ y hy
        obtain rfl := List.mem_singleton.mp hy
        exact ⟨hkey, hx⟩
    | cons z zs ih =>
        intro hzs
        have hz := hzs z List.mem_cons_self
        have hrest := ih fun y hy => hzs y (List.mem_cons_of_mem z hy)
        unfold alterList
        split_ifs
        · exact List.forall_mem_cons.mpr ⟨⟨hkey, hx⟩, hzs⟩
        · exact List.forall_mem_cons.mpr ⟨hz, hrest⟩
        · exact List.forall_mem_cons.mpr ⟨⟨hz.1, hx⟩, (List.forall_mem_cons.mp hzs).2⟩
  exact hlist m.items hm

theorem forall_assign_all {P : κ → Prop} {Q : ν → Prop} {m : OrderedMap less ν}
    {ps : List (κ × ν)} (hm : ∀ y ∈ m.items, P y.1 ∧ Q y.2) (hps : ∀ p ∈ ps, P p.1 ∧ Q p.2) :
    ∀ y ∈ (assignAll m ps).items, P y.1 ∧ Q y.2 := by
  induction ps generalizing m with
  | nil => exact hm
  | cons p ps ih =>
      obtain ⟨hp, hrest⟩ := List.forall_mem_cons.mp hps
      exact ih (forall_assign hm hp.1 hp.2) hrest

/-- What holds of all that is assigned to the empty map holds of what is there afterwards. -/
theorem forall_assigned (less : Compare κ) {P : κ → Prop} {Q : ν → Prop} {ps : List (κ × ν)}
    (hps : ∀ p ∈ ps, P p.1 ∧ Q p.2) :
    ∀ y ∈ (assignAll (.empty : OrderedMap less ν) ps).items, P y.1 ∧ Q y.2 :=
  forall_assign_all (fun _ h => absurd h List.not_mem_nil) hps

end

/-! ## What `pack` makes -/

theorem pack_member_inv {obj obj' : Object} {name : Text} {item : Value → Except Failure Value}
    (h : packMember obj name item = .ok obj') :
    ∃ val, item ((obj.find? name).getD .null) = .ok val ∧ obj' = obj.assign name val := by
  obtain ⟨val, hval, hobj⟩ := bind_ok_iff.mp h
  exact ⟨val, hval, (Except.ok.inj hobj).symm⟩

/-- Each element is packed from null. -/
theorem pack_each_inv {item : Value → α → Except Failure Value} {xs : List α}
    (front : List Value) {a : List Value} (hsize : front.length + xs.length < 2 ^ 32)
    (h : packEach item xs (UInt32.ofNat front.length)
      (front ++ List.replicate xs.length .null) = .ok a) :
    ∃ vals, a = front ++ vals ∧ List.Forall₂ (fun x val => item .null x = .ok val) xs vals := by
  induction xs generalizing front with
  | nil =>
      obtain rfl := Except.ok.inj h
      exact ⟨[], by simp, .nil⟩
  | cons x xs ih =>
      rw [List.length_cons] at hsize
      have hindex : (UInt32.ofNat front.length).toNat = front.length :=
        UInt32.toNat_ofNat_of_lt' (show front.length < 2 ^ 32 by omega)
      unfold packEach at h
      rw [hindex, List.length_cons, List.replicate_succ] at h
      simp only [List.getElem?_append_right (Nat.le_refl _), Nat.sub_self,
        List.getElem?_cons_zero] at h
      obtain ⟨val, hval, hrest⟩ := bind_ok_iff.mp h
      have hnext : UInt32.ofNat front.length + 1 = UInt32.ofNat (front ++ [val]).length := by
        rw [List.length_append, UInt32.ofNat_add]
        rfl
      have hset : (front ++ Value.null :: List.replicate xs.length .null).set front.length val =
          (front ++ [val]) ++ List.replicate xs.length .null := by
        simp [List.set_append_right]
      rw [hnext, hset] at hrest
      obtain ⟨vals, rfl, hvals⟩ := ih (front ++ [val])
        (by rw [List.length_append, List.length_singleton]; omega) hrest
      exact ⟨val :: vals, by simp, .cons hval hvals⟩

theorem pack_array_inv {item : Value → α → Except Failure Value} {xs : List α} {jsv : Value}
    (h : packArray item xs = .ok jsv) :
    ∃ a, jsv = .array a ∧ a.length = xs.length ∧ (xs.length < 2 ^ 32 →
      List.Forall₂ (fun x val => item .null x = .ok val) xs a) := by
  obtain ⟨a, ha, hjsv⟩ := bind_ok_iff.mp h
  refine ⟨a, (Except.ok.inj hjsv).symm, ?_, fun hsize => ?_⟩
  · rw [length_pack_each ha, List.length_replicate]
  · obtain ⟨vals, rfl, hvals⟩ := pack_each_inv [] (by simpa using hsize) ha
    exact hvals

/-- Each item becomes a member, since no key occurs twice. -/
theorem pack_items_inv {item : Value → β → Except Failure Value} {xs : List (Text × β)}
    {o o' : Object} (hkeys : xs.Pairwise fun x y => x.1 ≠ y.1)
    (hnew : ∀ x ∈ xs, o.find? x.1 = none) (h : packItems item xs o = .ok o') :
    ∃ vals, o' = o ++ vals ∧
      List.Forall₂ (fun x entry => entry.1 = x.1 ∧ item .null x.2 = .ok entry.2) xs vals := by
  induction xs generalizing o with
  | nil =>
      obtain rfl := Except.ok.inj h
      exact ⟨[], (List.append_nil _).symm, .nil⟩
  | cons x xs ih =>
      obtain ⟨o₁, hmember, hrest⟩ := bind_ok_iff.mp h
      obtain ⟨val, hval, rfl⟩ := pack_member_inv hmember
      have hfirst := hnew x List.mem_cons_self
      rw [hfirst] at hval
      rw [Object.assign_new hfirst] at hrest
      have hnew' : ∀ y ∈ xs, (o ++ [(x.1, val)] : Object).find? y.1 = none := by
        intro y hy
        rw [← Object.assign_new hfirst,
          Object.find_assign_other ((List.pairwise_cons.mp hkeys).1 y hy).symm]
        exact hnew y (List.mem_cons_of_mem _ hy)
      obtain ⟨vals, rfl, hvals⟩ := ih (List.pairwise_cons.mp hkeys).2 hnew' hrest
      exact ⟨(x.1, val) :: vals, List.append_assoc _ _ _, .cons ⟨rfl, hval⟩ hvals⟩

theorem pack_pair_inv {first : Value → α → Except Failure Value}
    {second : Value → β → Except Failure Value} {v : α × β} {jsv : Value}
    (h : packPair first second v = .ok jsv) :
    ∃ x y, jsv = .object [(str "first", x), (str "second", y)] ∧ first .null v.1 = .ok x ∧
      second .null v.2 = .ok y := by
  obtain ⟨obj, hfirst, h⟩ := bind_ok_iff.mp h
  obtain ⟨x, hx, rfl⟩ := pack_member_inv hfirst
  obtain ⟨obj', hsecond, h⟩ := bind_ok_iff.mp h
  obtain ⟨y, hy, rfl⟩ := pack_member_inv hsecond
  have hne : str "first" ≠ str "second" := by decide
  have hnew : Object.find? [(str "first", x)] (str "second") = none := by
    simp [Object.find?, hne]
  obtain rfl := Except.ok.inj h
  refine ⟨x, y, ?_, hx, ?_⟩
  · exact congrArg Value.object (Object.assign_new hnew y)
  · have hslot : Object.find? (Object.assign [] (str "first") x) (str "second") = none := hnew
    rw [hslot] at hy
    exact hy

/-! ## What `unpack` makes of it -/

theorem unpack_pair_iff {first : Value → α → Except Failure α}
    {second : Value → β → Except Failure β} {x y : Value} {v w : α × β} :
    unpackPair first second (.object [(str "first", x), (str "second", y)]) v = .ok w ↔
      first x v.1 = .ok w.1 ∧ second y v.2 = .ok w.2 := by
  constructor
  · intro h
    have hne : str "first" ≠ str "second" := by decide
    have hat : Value.at (.object [(str "first", x), (str "second", y)]) (str "first") = .ok x := by
      simp [Value.at, Object.at, Object.find?]
    have hat' : Value.at (.object [(str "first", x), (str "second", y)]) (str "second") =
        .ok y := by
      simp [Value.at, Object.at, Object.find?, hne]
    unfold unpackPair at h
    rw [hat, raised_ok, ok_bind] at h
    obtain ⟨a, ha, h⟩ := bind_ok_iff.mp h
    rw [hat', raised_ok, ok_bind] at h
    obtain ⟨b, hb, h⟩ := bind_ok_iff.mp h
    obtain rfl := Except.ok.inj h
    exact ⟨ha, hb⟩
  · intro h'
    obtain ⟨hfirst, hsecond⟩ := h'
    exact unpack_pair_ok hfirst hsecond

/-- The loop over the members of an object whose keys ascend. -/
theorem fold_members_iff {ν : Type} {item : Value → ν → Except Failure ν} {x₀ : ν}
    {m m' : OrderedMap lessString ν} {es : List (Text × Value)}
    (hkeys : (m.items.map Prod.fst ++ es.map Prod.fst).Pairwise
      fun x y => lessString.lt x y = true) :
    es.foldlM (fun m entry => item entry.2 (OrderedMap.slot m entry.1 x₀) >>= fun x =>
        Except.ok (OrderedMap.assign m entry.1 x)) m = .ok m' ↔
      ∃ ys, m'.items = m.items ++ ys ∧
        List.Forall₂ (fun e y => y.1 = e.1 ∧ item e.2 x₀ = .ok y.2) es ys := by
  induction es generalizing m with
  | nil =>
      constructor
      · intro h
        obtain rfl := Except.ok.inj h
        exact ⟨[], (List.append_nil _).symm, .nil⟩
      · intro h'
        obtain ⟨ys, hm', hys⟩ := h'
        cases hys
        exact congrArg Except.ok (Items.ext (hm'.trans (List.append_nil _)).symm)
  | cons e es ih =>
      have hbelow : ∀ y ∈ m.items, lessString.lt y.1 e.1 = true := fun y hy =>
        (List.pairwise_append.mp hkeys).2.2 y.1 (List.mem_map_of_mem hy) e.1 List.mem_cons_self
      have hslot : OrderedMap.slot m e.1 x₀ = x₀ := by
        rw [OrderedMap.slot, Items.find_last hbelow]
      have hlast : ∀ x, (OrderedMap.assign m e.1 x).items = m.items ++ [(e.1, x)] :=
        items_assign_last hbelow
      have hkeys' : ∀ x, ((OrderedMap.assign m e.1 x).items.map Prod.fst ++
          es.map Prod.fst).Pairwise fun x y => lessString.lt x y = true := by
        intro x
        rw [hlast, List.map_append, List.append_assoc]
        exact hkeys
      rw [List.foldlM_cons, bind_ok_iff, hslot]
      constructor
      · intro h'
        obtain ⟨m₁, hstep, hrest⟩ := h'
        obtain ⟨x, hx, hm₁⟩ := bind_ok_iff.mp hstep
        obtain rfl := Except.ok.inj hm₁
        obtain ⟨ys, hm', hys⟩ := (ih (hkeys' x)).mp hrest
        refine ⟨(e.1, x) :: ys, ?_, .cons ⟨rfl, hx⟩ hys⟩
        rw [hm', hlast, List.append_assoc]
        rfl
      · intro h'
        obtain ⟨ys, hm', hys⟩ := h'
        cases hys with
        | @cons _ y _ ys hy hys =>
            refine ⟨OrderedMap.assign m e.1 y.2, ?_, (ih (hkeys' y.2)).mpr ⟨ys, ?_, hys⟩⟩
            · rw [hy.2]
              rfl
            · rw [hm', hlast, List.append_assoc, ← hy.1]
              rfl

/-! ## The relation -/

mutual
/-- What was packed into this slot from `v` is unpacked as `v'` into a target that holds `w`. -/
def Packable.Returns (memory : Memory) : {α : Type} → Packable α → Value → (w v v' : α) → Prop
  | _, .atomic p, slot, _, v, v' => p.unpack (p.pack slot v) = .ok v'
  | _, .optional t, slot, _, v, v' =>
      ∃ x y, v = some x ∧ v' = some y ∧ t.Returns memory slot (t.construct .zero) x y
  | _, .required t, slot, _, v, v' =>
      ∃ x y, v = some x ∧ v' = some y ∧ t.Returns memory slot (t.construct .zero) x y
  | _, .vector t, _, w, v, v' => v.length < 2 ^ 32 ∧ ∃ ys, v' = w ++ ys ∧
      List.Forall₂ (fun x y => t.Returns memory .null (t.construct memory) x y) v ys
  | _, .list _, _, _, _, _ => False
  | _, .set _ _, _, _, _, _ => False
  | _, .stringMap t, _, _, v, v' => v.items.length < 2 ^ 32 ∧
      List.Forall₂ (fun x y => y.1 = x.1 ∧ t.Returns memory .null (t.construct .zero) x.2 y.2)
        v.items v'.items
  | _, .map _ k t, _, _, v, v' => v.items.length < 2 ^ 32 ∧ ∃ ys, v' = assignAll .empty ys ∧
      List.Forall₂ (fun x y => k.Returns memory .null (k.construct .zero) x.1 y.1 ∧
        t.Returns memory .null (t.construct .zero) x.2 y.2) v.items ys
  | _, .pair t u, _, w, v, v' =>
      t.Returns memory .null w.1 v.1 v'.1 ∧ u.Returns memory .null w.2 v.2 v'.2
  | _, .sequence ts, _, w, v, v' => ts.Returns memory w v v'
  | _, .struct ts members, _, w, v, v' => ts.Returns memory (members w) (members v) (members v')

def Parts.Returns (memory : Memory) : {α : Type} → Parts α → (w v v' : α) → Prop
  | _, .nil, _, _, _ => True
  | _, .cons t ts, w, v, v' =>
      t.Returns memory .null w.1 v.1 v'.1 ∧ ts.Returns memory w.2 v.2 v'.2

def Fields.Returns (memory : Memory) : {names : List Text} → {α : Type} → Fields names α →
    (w v v' : α) → Prop
  | _, _, .nil, _, _, _ => True
  | _, _, .cons _ _ t ts, w, v, v' =>
      (if t.unset v.1 then v'.1 = w.1 else t.Returns memory .null w.1 v.1 v'.1) ∧
        ts.Returns memory w.2 v.2 v'.2
end

/-- An optional or a required field is set to what is unpacked for it. -/
theorem unpack_some_iff {r : Except Failure α} {R : α → α → Prop} {x : α}
    (h : ∀ y, r = .ok y ↔ R x y) (v' : Option α) :
    (r >>= fun y => Except.ok (some y)) = .ok v' ↔
      ∃ x' y, some x = some x' ∧ v' = some y ∧ R x' y := by
  rw [bind_ok_iff]
  constructor
  · intro hbind
    obtain ⟨y, hy, hv'⟩ := hbind
    exact ⟨x, y, rfl, (Except.ok.inj hv').symm, (h y).mp hy⟩
  · intro hset
    obtain ⟨x', y, hx, rfl, hy⟩ := hset
    obtain rfl := Option.some.inj hx
    exact ⟨y, (h y).mpr hy, rfl⟩

/-- One item after the other. -/
theorem both_ok_iff {r : Except Failure α} {r' : Except Failure β} {v : α × β} :
    (r >>= fun x => r' >>= fun y => Except.ok (x, y)) = .ok v ↔ r = .ok v.1 ∧ r' = .ok v.2 := by
  rw [bind_ok_iff]
  constructor
  · intro h
    obtain ⟨x, hx, hrest⟩ := h
    obtain ⟨y, hy, hv⟩ := bind_ok_iff.mp hrest
    obtain rfl := Except.ok.inj hv
    exact ⟨hx, hy⟩
  · intro h
    refine ⟨v.1, h.1, ?_⟩
    rw [h.2]
    rfl

theorem visit_member_of_find {item : Value → Except Failure α} {obj : Object} {name : Text}
    {val : Value} (h : obj.find? name = some val) (x : α) :
    visitMember item obj name x = item val := by
  unfold visitMember Object.contains
  rw [h, Option.isSome_some, if_pos rfl, Object.at_of_find h]
  rfl

theorem visit_member_of_not_find {item : Value → Except Failure α} {obj : Object} {name : Text}
    (h : obj.find? name = none) (x : α) : visitMember item obj name x = .ok x := by
  unfold visitMember Object.contains
  rw [h, Option.isSome_none, if_neg (by simp)]

/-- From elementwise reading of what was packed elementwise. -/
theorem forall₂_comp_iff {P : α → β → Prop} {Q : β → γ → Prop} {R : α → γ → Prop}
    {xs : List α} {vals : List β} {ys : List γ} (hP : List.Forall₂ P xs vals)
    (h : ∀ x val y, P x val → (Q val y ↔ R x y)) :
    List.Forall₂ Q vals ys ↔ List.Forall₂ R xs ys := by
  induction hP generalizing ys with
  | nil => rw [List.forall₂_nil_left_iff, List.forall₂_nil_left_iff]
  | cons hx _ ih =>
      rw [List.forall₂_cons_left_iff, List.forall₂_cons_left_iff]
      refine exists_congr fun y => exists_congr fun rest => ?_
      rw [h _ _ y hx, ih]

theorem keys_packed {P : α × β → α × γ → Prop} {xs : List (α × β)} {es : List (α × γ)}
    (h : List.Forall₂ (fun x e => e.1 = x.1 ∧ P x e) xs es) :
    es.map Prod.fst = xs.map Prod.fst := by
  induction h with
  | nil => rfl
  | cons hx _ ih => rw [List.map_cons, List.map_cons, hx.1, ih]

/-- The keys of a map ascend. -/
theorem keys_ascend {κ ν : Type} {less : Compare κ} (m : OrderedMap less ν) :
    (m.items.map Prod.fst).Pairwise fun x y => less.lt x y = true :=
  List.pairwise_map.mpr m.sorted

mutual
/-- What `unpack` makes of what `pack` made. -/
theorem Packable.unpack_packed_iff (memory : Memory) {α : Type} (t : Packable α) {slot jsv : Value}
    {v : α} : t.pack slot v = .ok jsv → ∀ w v' : α,
      (t.unpack memory jsv w = .ok v' ↔ t.Returns memory slot w v v') := by
  intro hpack w v'
  match t, v, hpack, w, v' with
  | .atomic p, v, hpack, w, v' =>
      obtain rfl := Except.ok.inj hpack
      exact Iff.rfl
  | .optional _, none, hpack, w, v' => cases hpack
  | .optional t, some x, hpack, w, v' =>
      exact unpack_some_iff (t.unpack_packed_iff memory (v := x) hpack (t.construct .zero)) v'
  | .required _, none, hpack, w, v' => cases hpack
  | .required t, some x, hpack, w, v' =>
      exact unpack_some_iff (t.unpack_packed_iff memory (v := x) hpack (t.construct .zero)) v'
  | .vector t, v, hpack, w, v' =>
      obtain ⟨a, rfl, hlength, hall⟩ := pack_array_inv hpack
      show countedLoop (fun v val => t.unpack memory val (t.construct memory) >>= fun x =>
        Except.ok (v ++ [x])) a w = _ ↔ _
      by_cases hsize : v.length < 2 ^ 32
      · rw [counted_loop_of_lt (hlength ▸ hsize)]
        refine (fold_items_iff w).trans (Iff.trans ?_ (and_iff_right hsize).symm)
        refine exists_congr fun ys => and_congr_right fun _ => ?_
        exact forall₂_comp_iff (hall hsize) fun x val y hval =>
          t.unpack_packed_iff memory hval (t.construct memory) y
      · refine iff_of_false ?_ fun h => hsize h.1
        exact counted_loop_ne_ok _ _ (hlength ▸ Nat.le_of_not_lt hsize)
  | .list _, _, hpack, w, v' => exact iff_of_false (fun h => by cases h) id
  | .set _ _, _, hpack, w, v' => exact iff_of_false (fun h => by cases h) id
  | .stringMap t, v, hpack, w, v' =>
      obtain ⟨o, hitems, hjsv⟩ := bind_ok_iff.mp hpack
      obtain rfl := Except.ok.inj hjsv
      obtain ⟨vals, hvals, hall⟩ := pack_items_inv (keys_ne v) (fun _ _ => rfl) hitems
      rw [List.nil_append] at hvals
      subst hvals
      show countedLoop (fun m entry =>
        t.unpack memory entry.2 (OrderedMap.slot m entry.1 (t.construct .zero)) >>= fun x =>
          Except.ok (OrderedMap.assign m entry.1 x)) o .empty = _ ↔ _
      by_cases hsize : v.items.length < 2 ^ 32
      · have hkeys : (([] : List Text) ++ o.map Prod.fst).Pairwise fun x y =>
            lessString.lt x y = true := by
          rw [List.nil_append, keys_packed hall]
          exact keys_ascend v
        rw [counted_loop_of_lt (hall.length_eq ▸ hsize), fold_members_iff (m := .empty) hkeys]
        refine Iff.trans ?_ (and_iff_right hsize).symm
        refine Iff.trans ⟨?_, fun h => ⟨_, rfl, h⟩⟩ (forall₂_comp_iff hall ?_)
        · intro h'
          obtain ⟨ys, hitems, hys⟩ := h'
          obtain rfl : v'.items = ys := hitems
          exact hys
        · intro x entry y hentry
          rw [hentry.1, t.unpack_packed_iff memory hentry.2]
      · refine iff_of_false ?_ fun h => hsize h.1
        exact counted_loop_ne_ok _ _ (hall.length_eq ▸ Nat.le_of_not_lt hsize)
  | .map _ k t, v, hpack, w, v' =>
      obtain ⟨a, rfl, hlength, hall⟩ := pack_array_inv hpack
      show countedLoop (fun m val =>
        unpackPair (fun val x => k.unpack memory val x) (fun val x => t.unpack memory val x) val
          (k.construct .zero, t.construct .zero) >>= fun p =>
            Except.ok (OrderedMap.assign m p.1 p.2)) a .empty = _ ↔ _
      by_cases hsize : v.items.length < 2 ^ 32
      · rw [counted_loop_of_lt (hlength ▸ hsize), fold_collect_iff]
        refine Iff.trans ?_ (and_iff_right hsize).symm
        refine exists_congr fun ys => and_congr_right fun _ => ?_
        refine forall₂_comp_iff (hall hsize) fun x val y hval => ?_
        obtain ⟨key, mapped, rfl, hkey, hmapped⟩ := pack_pair_inv hval
        exact unpack_pair_iff.trans (and_congr (k.unpack_packed_iff memory hkey _ y.1)
          (t.unpack_packed_iff memory hmapped _ y.2))
      · refine iff_of_false ?_ fun h => hsize h.1
        exact counted_loop_ne_ok _ _ (hlength ▸ Nat.le_of_not_lt hsize)
  | .pair t u, v, hpack, w, v' =>
      obtain ⟨x, y, rfl, hx, hy⟩ := pack_pair_inv hpack
      exact unpack_pair_iff.trans (and_congr (t.unpack_packed_iff memory hx w.1 v'.1)
        (u.unpack_packed_iff memory hy w.2 v'.2))
  | .sequence ts, v, hpack, w, v' =>
      obtain ⟨a, ha, hjsv⟩ := bind_ok_iff.mp hpack
      obtain rfl := Except.ok.inj hjsv
      obtain ⟨vals, rfl, hvals⟩ := ts.unpack_packed_iff memory ha
      exact (hvals w v').2
  | .struct ts members, v, hpack, w, v' =>
      obtain ⟨obj, hobj, hjsv⟩ := bind_ok_iff.mp hpack
      obtain rfl := Except.ok.inj hjsv
      have hiff := (ts.unpack_packed_iff memory (fun _ _ => rfl) hobj).2 (members w) (members v')
      show (ts.unpack memory obj (members w) >>= fun x => Except.ok (members.symm x)) = _ ↔ _
      rw [bind_ok_iff]
      refine Iff.trans ⟨?_, fun h => ⟨members v', h, ?_⟩⟩ hiff
      · intro h'
        obtain ⟨x, hx, hv'⟩ := h'
        obtain rfl := Except.ok.inj hv'
        rw [Equiv.apply_symm_apply]
        exact hx
      · rw [Equiv.symm_apply_apply]

theorem Parts.unpack_packed_iff (memory : Memory) {α : Type} (ts : Parts α) {front a : List Value}
    {v : α} : ts.pack front v = .ok a → ∃ vals, a = front ++ vals ∧ ∀ w v',
      (ts.unpack memory (.before vals) w = .ok v' ↔ ts.Returns memory w v v') ∧
      (ts.unpack memory (.begin vals) w = .ok v' ↔ ts.Returns memory w v v') := by
  intro hpack
  match ts, v, hpack with
  | .nil, v, hpack =>
      obtain rfl := Except.ok.inj hpack
      refine ⟨[], (List.append_nil _).symm, fun w v' => ?_⟩
      exact ⟨iff_of_true rfl trivial, iff_of_true rfl trivial⟩
  | .cons t ts, (x, xs), hpack =>
      obtain ⟨val, hval, hrest⟩ := bind_ok_iff.mp hpack
      obtain ⟨vals, rfl, hvals⟩ := ts.unpack_packed_iff memory hrest
      refine ⟨val :: vals, List.append_assoc _ _ _, ?_⟩
      rintro ⟨y, ys⟩ ⟨x', xs'⟩
      have hiff : Parts.unpack memory (.cons t ts) (.before (val :: vals)) (y, ys) = .ok (x', xs') ↔
          Parts.Returns memory (.cons t ts) (y, ys) (x, xs) (x', xs') := by
        show (t.unpack memory val y >>= fun x => ts.unpack memory (.before vals) ys >>= fun xs =>
          Except.ok (x, xs)) = _ ↔ _
        exact both_ok_iff.trans
          (and_congr (t.unpack_packed_iff memory hval y x') (hvals ys xs').1)
      exact ⟨hiff, hiff⟩

theorem Fields.unpack_packed_iff (memory : Memory) {names : List Text} {α : Type}
    (ts : Fields names α) {obj obj' : Object} {v : α}
    (hnew : ∀ name ∈ names, obj.find? name = none) : ts.pack obj v = .ok obj' →
    (∀ name, name ∉ names → obj'.find? name = obj.find? name) ∧
      ∀ w v', ts.unpack memory obj' w = .ok v' ↔ ts.Returns memory w v v' := by
  intro hpack
  match ts, v, hpack with
  | .nil, v, hpack =>
      obtain rfl := Except.ok.inj hpack
      exact ⟨fun _ _ => rfl, fun w v' => iff_of_true rfl trivial⟩
  | .cons name fresh t ts, (x, xs), hpack =>
      obtain ⟨obj₁, hmember, hrest⟩ := bind_ok_iff.mp hpack
      have hvisit : ∀ y ys x' xs', Fields.unpack memory (.cons name fresh t ts) obj' (y, ys) =
            .ok (x', xs') ↔
          visitMember (fun val => t.unpack memory val y) obj' name y = .ok x' ∧
            ts.unpack memory obj' ys = .ok xs' :=
        fun y ys x' xs' => both_ok_iff
      cases hunset : t.unset x with
      | true =>
          rw [hunset] at hmember
          obtain rfl := Except.ok.inj hmember
          obtain ⟨hframe, hiff⟩ := ts.unpack_packed_iff memory
            (fun other h => hnew other (List.mem_cons_of_mem _ h)) hrest
          have hfind : obj'.find? name = none := by
            rw [hframe name fresh, hnew name List.mem_cons_self]
          refine ⟨fun other h => hframe other fun h' => h (List.mem_cons_of_mem _ h'), ?_⟩
          rintro ⟨y, ys⟩ ⟨x', xs'⟩
          rw [hvisit, visit_member_of_not_find hfind, hiff]
          refine and_congr_left fun _ => ?_
          rw [show (Prod.mk x xs).1 = x from rfl, hunset, if_pos rfl]
          exact ⟨fun h => (Except.ok.inj h).symm, fun h => congrArg Except.ok h.symm⟩
      | false =>
          rw [hunset] at hmember
          have hmember : packMember obj name (fun slot => t.pack slot x) = .ok obj₁ := hmember
          obtain ⟨val, hval, rfl⟩ := pack_member_inv hmember
          rw [hnew name List.mem_cons_self] at hval
          obtain ⟨hframe, hiff⟩ := ts.unpack_packed_iff memory (new_assign hnew fresh val) hrest
          have hfind : obj'.find? name = some val := by
            rw [hframe name fresh, Object.find_assign_same]
          refine ⟨frame_assign hframe, ?_⟩
          rintro ⟨y, ys⟩ ⟨x', xs'⟩
          rw [hvisit, visit_member_of_find hfind, hiff]
          refine and_congr_left fun _ => ?_
          rw [show (Prod.mk x xs).1 = x from rfl, hunset, if_neg (by simp)]
          exact t.unpack_packed_iff memory hval y x'
end

end BoostRpc.Json
