import BoostRpc.Json.TypedRoundTrip

/-!
# Versions of a type

A client and a server may be built against different versions of a struct. `Understands t t' f`
says that a reader of type `t'` understands a writer of type `t`: it may have optional members that
the writer does not have, it may not have some of the writer's, and its numbers may be wider, at
any depth. `understood` shows that it gets the value that `f` makes of the writer's.
-/

namespace BoostRpc.Json

open Ordered Raw

/-- The map with other mapped values. -/
def mapValues {κ ν ν' : Type} {less : Compare κ} (f : ν → ν') (m : OrderedMap less ν) :
    OrderedMap less ν' :=
  ⟨m.items.map (Prod.map id f), List.pairwise_map.mpr m.sorted⟩

/-! ## Writers and readers -/

mutual
/-- `Understands t t' f` says that of a value `v` of the type `t` a reader of type `t'` makes
`f v`. -/
inductive Understands : {α β : Type} → JsonType α → JsonType β → (α → β) → Prop where
  | same {α : Type} (t : JsonType α) : Understands t t id
  | wider {α β : Type} (i : Integer α) (j : Integer β) :
      j.least ≤ i.least → i.most ≤ j.most →
      Understands (.integer i) (.integer j) fun n => j.ofInt (i.toInt n)
  | double {α : Type} (i : Integer α) :
      Understands (.integer i) .double fun n => .finite (i.toInt n)
  | vector {α β : Type} (t : JsonType α) (t' : JsonType β) (f : α → β) :
      Understands t t' f → Understands (.vector t) (.vector t') (List.map f)
  | stringMap {α β : Type} (t : JsonType α) (t' : JsonType β) (f : α → β) :
      Understands t t' f → Understands (.stringMap t) (.stringMap t') (mapValues f)
  | map {κ α β : Type} (less : Compare κ) (k : JsonType κ) (t : JsonType α) (t' : JsonType β)
      (f : α → β) : Understands t t' f → Understands (.map less k t) (.map less k t') (mapValues f)
  | pair {α β α' β' : Type} (t : JsonType α) (u : JsonType β) (t' : JsonType α') (u' : JsonType β')
      (f : α → α') (g : β → β') : Understands t t' f → Understands u u' g →
      Understands (.pair t u) (.pair t' u') (Prod.map f g)
  | required {α β : Type} (t : JsonType α) (t' : JsonType β) (f : α → β) :
      Understands t t' f → Understands (.required t) (.required t') (Option.map f)
  | nowRequired {α β : Type} (t : JsonType α) (t' : JsonType β) (f : α → β) :
      Understands t t' f → Understands t (.required t') fun x => some (f x)
  | sequence {α β : Type} (ts : Elements α) (ts' : Elements β) (f : α → β) :
      UnderstandsElements ts ts' f → Understands (.sequence ts) (.sequence ts') f
  | struct {S α S' α' : Type} {names names' : List Text} (ts : Members names α)
      (ts' : Members names' α') (members : S ≃ α) (members' : S' ≃ α') (f : α → α') :
      UnderstandsMembers ts ts' f →
      Understands (.struct ts members) (.struct ts' members') fun v => members'.symm (f (members v))

/-- `Understands` for the elements of a sequence. -/
inductive UnderstandsElements : {α β : Type} → Elements α → Elements β → (α → β) → Prop where
  | nil : UnderstandsElements .nil .nil id
  | cons {α β α' β' : Type} (t : JsonType α) (t' : JsonType α') (ts : Elements β)
      (ts' : Elements β') (f : α → α') (g : β → β') : Understands t t' f →
      UnderstandsElements ts ts' g → UnderstandsElements (.cons t ts) (.cons t' ts') (Prod.map f g)

/-- `Understands` for the members of a struct. -/
inductive UnderstandsMembers : {names names' : List Text} → {α β : Type} → Members names α →
    Members names' β → (α → β) → Prop where
  | nil : UnderstandsMembers .nil .nil id
  | both {names names' : List Text} {α β α' β' : Type} (name : Text) (fresh : name ∉ names)
      (fresh' : name ∉ names') (t : JsonType α) (t' : JsonType α') (ts : Members names β)
      (ts' : Members names' β') (f : α → α') (g : β → β') : Understands t t' f →
      UnderstandsMembers ts ts' g →
      UnderstandsMembers (.cons name fresh t ts) (.cons name fresh' t' ts') (Prod.map f g)
  | optional {names names' : List Text} {α β α' β' : Type} (name : Text) (fresh : name ∉ names)
      (fresh' : name ∉ names') (t : JsonType α) (t' : JsonType α') (ts : Members names β)
      (ts' : Members names' β') (f : α → α') (g : β → β') : Understands t t' f →
      UnderstandsMembers ts ts' g →
      UnderstandsMembers (.optional name fresh t ts) (.optional name fresh' t' ts')
        (Prod.map (Option.map f) g)
  /-- A member that the writer always has and the reader can do without. -/
  | nowOptional {names names' : List Text} {α β α' β' : Type} (name : Text)
      (fresh : name ∉ names) (fresh' : name ∉ names') (t : JsonType α) (t' : JsonType α')
      (ts : Members names β) (ts' : Members names' β') (f : α → α') (g : β → β') :
      Understands t t' f → UnderstandsMembers ts ts' g →
      UnderstandsMembers (.cons name fresh t ts) (.optional name fresh' t' ts')
        (Prod.map (fun x => some (f x)) g)
  /-- A member that the reader does not have. -/
  | removed {names names' : List Text} {α β β' : Type} (name : Text) (fresh : name ∉ names)
      (t : JsonType α) (ts : Members names β) (ts' : Members names' β') (g : β → β') :
      name ∉ names' → UnderstandsMembers ts ts' g →
      UnderstandsMembers (.cons name fresh t ts) ts' fun v => g v.2
  | removedOptional {names names' : List Text} {α β β' : Type} (name : Text)
      (fresh : name ∉ names) (t : JsonType α) (ts : Members names β) (ts' : Members names' β')
      (g : β → β') : name ∉ names' → UnderstandsMembers ts ts' g →
      UnderstandsMembers (.optional name fresh t ts) ts' fun v => g v.2
  /-- A member that the writer does not have. -/
  | added {names names' : List Text} {α β β' : Type} (name : Text) (fresh' : name ∉ names')
      (t' : JsonType α) (ts : Members names β) (ts' : Members names' β') (g : β → β') :
      name ∉ names → UnderstandsMembers ts ts' g →
      UnderstandsMembers ts (.optional name fresh' t' ts') fun v => (none, g v)
end

/-! ## Reading -/

section Members

variable {names : List Text} {α β : Type} {memory : Memory} {name : Text} {fresh : name ∉ names}
  {t : JsonType α} {ts : Members names β} {obj : Object} {val : Value} {x : α} {xs w : β}

/-- A member that is there. -/
theorem unpack_member_found (hfind : obj.find? name = some val) {y : α}
    (hval : unpack memory t val y = .ok x) (hrest : unpackObject memory ts obj w = .ok xs) :
    unpackObject memory (.cons name fresh t ts) obj (y, w) = .ok (x, xs) := by
  unfold unpackObject Object.contains
  rw [hfind, Object.at_of_find hfind, Option.isSome_some, if_pos rfl, raised_ok, ok_bind, hval,
    ok_bind, hrest]
  rfl

/-- An optional member that is there. -/
theorem unpack_optional_found (hfind : obj.find? name = some val) {y : Option α}
    (hval : unpack memory t val (construct .zero t) = .ok x)
    (hrest : unpackObject memory ts obj w = .ok xs) :
    unpackObject memory (.optional name fresh t ts) obj (y, w) = .ok (some x, xs) := by
  unfold unpackObject Object.contains
  rw [hfind, Object.at_of_find hfind, Option.isSome_some, if_pos rfl, raised_ok, ok_bind, hval,
    ok_bind, ok_bind, hrest]
  rfl

/-- An optional member that is not there stays as it is. -/
theorem unpack_optional_missing (hfind : obj.find? name = none) {y : Option α}
    (hrest : unpackObject memory ts obj w = .ok xs) :
    unpackObject memory (.optional name fresh t ts) obj (y, w) = .ok (y, xs) := by
  unfold unpackObject Object.contains
  rw [hfind, Option.isSome_none, if_neg (by simp), ok_bind, hrest]
  rfl

end Members

/-- A member is packed, and then the others. -/
theorem pack_member_then {obj obj' : Object} {name : Text} {item : Value → Except Failure Value}
    {rest : Object → Except Failure Object} {val : Value}
    (h : item ((obj.find? name).getD .null) = .ok val)
    (hrest : rest (obj.assign name val) = .ok obj') :
    (packMember obj name item >>= rest) = .ok obj' := by
  rw [pack_member_ok h, ok_bind]
  exact hrest

/-- An integer is read as one of any type that has it. -/
theorem unpack_integer_within {α : Type} (i : Integer α) {n : Int}
    (h : i.least ≤ n ∧ n ≤ i.most) : unpackInteger i (.int n) = .ok (i.ofInt n) := by
  show i.ofDouble (.finite n) = .ok (i.ofInt n)
  rw [Integer.of_double_finite, truncate_int, if_pos h]

mutual
/-- What the writer packs the reader unpacks. -/
theorem packs_understood {α β : Type} {t : JsonType α} {t' : JsonType β} {f : α → β}
    (h : Understands t t' f) (v : α) (hset : RequiredSet t v) (hsize : Sized t v)
    (memory : Memory) : Packs (fun slot x => pack t slot x) v (Unpacks memory t' (f v)) := by
  intro slot
  match h, v, hset, hsize with
  | .same t, v, hset, hsize => exact packs t v hset hsize memory slot
  | .wider i j hleast hmost, v, hset, hsize =>
      have hrange := i.inRange v
      exact ⟨.int (i.toInt v), rfl, fun _ =>
        unpack_integer_within j ⟨hleast.trans hrange.1, hrange.2.trans hmost⟩⟩
  | .double i, v, hset, hsize => exact ⟨.int (i.toInt v), rfl, fun _ => rfl⟩
  | .vector t t' f hf, v, hset, hsize =>
      obtain ⟨vals, hvals, hall⟩ := packs_array _ (fun x => Unpacks memory t' (f x))
        (fun x hx => packs_understood hf x (hset x hx) (hsize.2 x hx) memory .null) hsize.1
      refine ⟨.array vals, hvals, ?_⟩
      intro fill
      rw [unpack, construct, show raised (Value.array vals).toArray = .ok vals from rfl, ok_bind,
        counted_loop_of_lt (hall.length_eq ▸ hsize.1)]
      exact unpacks_vector (List.forall₂_map_left_iff.mpr hall) []
  | .stringMap t t' f hf, v, hset, hsize =>
      obtain ⟨vals, hvals, hall⟩ := packs_items (fun x => Unpacks memory t' (f x))
        (fun x hx => packs_understood hf x.2 (hset x hx) (hsize.2 x hx) memory) (keys_ne v)
        (fun _ _ => rfl : ∀ x ∈ v.items, Object.find? [] x.1 = none)
      refine ⟨.object vals, ?_, ?_⟩
      · show pack (.stringMap t) slot v = .ok (.object vals)
        rw [pack, hvals]
        rfl
      intro fill
      unfold unpack
      rw [show raised (Value.object vals).toObject = .ok vals from rfl, ok_bind,
        counted_loop_of_lt (hall.length_eq ▸ hsize.1)]
      have hmapped : List.Forall₂ (fun x entry => entry.1 = x.1 ∧ Unpacks memory t' x.2 entry.2)
          (mapValues f v).items vals := List.forall₂_map_left_iff.mpr hall
      apply unpacks_items _ hmapped (List.nil_append (mapValues f v).items)
      intro xs x ys h entry hentry
      rw [hentry.1, OrderedMap.slot_front (mapValues f v) h, hentry.2 .zero, ok_bind]
      exact congrArg Except.ok (OrderedMap.assign_front (mapValues f v) h)
  | .map less k t t' f hf, v, hset, hsize =>
      have hpairs : ∀ x ∈ v.items, ∃ val,
          packPair (fun slot y => pack k slot y) (fun slot y => pack t slot y) x = .ok val ∧
            ∃ y z, val = .object [(str "first", y), (str "second", z)] ∧
              Unpacks memory k x.1 y ∧ Unpacks memory t' (f x.2) z := by
        intro x hx
        obtain ⟨y, z, hpair, hy, hz⟩ :=
          @packs_pair _ _ _ _ (Unpacks memory k) (fun y => Unpacks memory t' (f y)) x
            (packs k x.1 (hset x hx).1 (hsize.2 x hx).1 memory)
            (packs_understood hf x.2 (hset x hx).2 (hsize.2 x hx).2 memory)
        exact ⟨_, hpair, y, z, rfl, hy, hz⟩
      obtain ⟨vals, hvals, hall⟩ := packs_array (fun _ x =>
          packPair (fun slot y => pack k slot y) (fun slot y => pack t slot y) x) _ hpairs hsize.1
      refine ⟨.array vals, hvals, ?_⟩
      intro fill
      unfold unpack
      rw [show raised (Value.array vals).toArray = .ok vals from rfl, ok_bind,
        counted_loop_of_lt (hall.length_eq ▸ hsize.1)]
      have hmapped : List.Forall₂ (fun x val => ∃ y z,
          val = .object [(str "first", y), (str "second", z)] ∧ Unpacks memory k x.1 y ∧
            Unpacks memory t' x.2 z) (mapValues f v).items vals :=
        List.forall₂_map_left_iff.mpr hall
      apply unpacks_items _ hmapped (List.nil_append (mapValues f v).items)
      intro xs x ys h val hval
      obtain ⟨y, z, rfl, hy, hz⟩ := hval
      rw [unpack_pair_ok (w := x) (hy .zero) (hz .zero), ok_bind]
      exact congrArg Except.ok (OrderedMap.assign_front (mapValues f v) h)
  | .pair t u t' u' f g hf hg, v, hset, hsize =>
      obtain ⟨y, z, hpair, hy, hz⟩ :=
        @packs_pair _ _ _ _ (fun x => Unpacks memory t' (f x)) (fun y => Unpacks memory u' (g y)) v
          (packs_understood hf v.1 hset.1 hsize.1 memory)
          (packs_understood hg v.2 hset.2 hsize.2 memory)
      exact ⟨_, hpair, fun fill => unpack_pair_ok (hy .zero) (hz .zero)⟩
  | .required t t' f hf, v, hset, hsize =>
      obtain ⟨x, rfl, hx⟩ := hset
      obtain ⟨val, hval, hunpack⟩ := packs_understood hf x hx (hsize x rfl) memory slot
      refine ⟨val, hval, ?_⟩
      intro fill
      unfold unpack
      rw [hunpack .zero]
      rfl
  | .nowRequired t t' f hf, v, hset, hsize =>
      obtain ⟨val, hval, hunpack⟩ := packs_understood hf v hset hsize memory slot
      refine ⟨val, hval, ?_⟩
      intro fill
      unfold unpack
      rw [hunpack .zero]
      rfl
  | .sequence ts ts' f hf, v, hset, hsize =>
      obtain ⟨vals, hvals, hunpack⟩ := packs_elements_understood hf v hset hsize memory []
      refine ⟨.array vals, ?_, ?_⟩
      · show pack (.sequence ts) slot v = .ok (.array vals)
        rw [pack, hvals]
        rfl
      intro fill
      unfold unpack construct
      exact (hunpack fill).2
  | .struct ts ts' members members' f hf, v, hset, hsize =>
      obtain ⟨obj, hobj, -, hunpack⟩ := packs_members_understood hf (members v) hset hsize memory
        (fun _ _ => rfl : ∀ name ∈ _, Object.find? [] name = none) (fun _ _ => rfl)
      refine ⟨.object obj, ?_, ?_⟩
      · show pack (.struct ts members) slot v = .ok (.object obj)
        rw [pack, hobj]
        rfl
      intro fill
      unfold unpack construct
      rw [show raised (Value.object obj).toObject = .ok obj from rfl, ok_bind,
        Equiv.apply_symm_apply, hunpack fill, ok_bind]
      rfl

theorem packs_elements_understood {α β : Type} {ts : Elements α} {ts' : Elements β} {f : α → β}
    (h : UnderstandsElements ts ts' f) (v : α) (hset : RequiredSetElements ts v)
    (hsize : SizedElements ts v) (memory : Memory) (front : List Value) :
    ∃ vals, packSequence ts front v = .ok (front ++ vals) ∧
      ∀ fill, unpackSequence memory ts' (.before vals) (constructElements fill ts') = .ok (f v) ∧
        unpackSequence memory ts' (.begin vals) (constructElements fill ts') = .ok (f v) := by
  match h, v, hset, hsize with
  | .nil, v, _, _ => exact ⟨[], by simp [packSequence, pure, Except.pure], fun _ => ⟨rfl, rfl⟩⟩
  | .cons t t' ts ts' f g hf hg, (x, xs), hset, hsize =>
      obtain ⟨val, hval, hunpack⟩ := packs_understood hf x hset.1 hsize.1 memory .null
      obtain ⟨vals, hvals, hunpacks⟩ :=
        packs_elements_understood hg xs hset.2 hsize.2 memory (front ++ [val])
      have hcons : ∀ fill, unpackSequence memory (.cons t' ts') (.before (val :: vals))
          (constructElements fill (.cons t' ts')) = .ok (f x, g xs) := by
        intro fill
        unfold unpackSequence constructElements
        rw [hunpack fill, ok_bind, (hunpacks fill).1]
        rfl
      refine ⟨val :: vals, ?_, fun fill => ⟨hcons fill, hcons fill⟩⟩
      have hval : pack t .null x = .ok val := hval
      unfold packSequence
      rw [hval, ok_bind, hvals, List.append_assoc]
      rfl

/-- The members of the writer are packed into an object without them and without those that the
reader has in addition. -/
theorem packs_members_understood {names names' : List Text} {α β : Type} {ts : Members names α}
    {ts' : Members names' β} {f : α → β} (h : UnderstandsMembers ts ts' f) (v : α)
    (hset : RequiredSetMembers ts v) (hsize : SizedMembers ts v) (memory : Memory) {obj : Object}
    (hnew : ∀ name ∈ names, obj.find? name = none)
    (hnew' : ∀ name ∈ names', obj.find? name = none) :
    ∃ obj', packObject ts obj v = .ok obj' ∧
      (∀ name, name ∉ names → obj'.find? name = obj.find? name) ∧
      ∀ fill, unpackObject memory ts' obj' (constructMembers fill ts') = .ok (f v) := by
  match h, v, hset, hsize with
  | .nil, v, _, _ => exact ⟨obj, rfl, fun _ _ => rfl, fun _ => rfl⟩
  | .both name fresh fresh' t t' ts ts' f g hf hg, (x, xs), hset, hsize =>
      obtain ⟨val, hval, hunpack⟩ :=
        packs_understood hf x hset.1 hsize.1 memory ((obj.find? name).getD .null)
      obtain ⟨obj', hobj, hframe, hunpacks⟩ := packs_members_understood hg xs hset.2 hsize.2 memory
        (new_assign hnew fresh val) (new_assign hnew' fresh' val)
      have hfind : obj'.find? name = some val := by
        rw [hframe name fresh, Object.find_assign_same]
      refine ⟨obj', pack_member_then hval hobj, frame_assign hframe, fun fill => ?_⟩
      exact unpack_member_found hfind (hunpack fill) (hunpacks fill)
  | .optional name fresh fresh' t t' ts ts' f g hf hg, (none, xs), hset, hsize =>
      obtain ⟨obj', hobj, hframe, hunpacks⟩ := packs_members_understood hg xs hset.2 hsize.2 memory
        (fun other h => hnew other (List.mem_cons_of_mem _ h))
        (fun other h => hnew' other (List.mem_cons_of_mem _ h))
      have hfind : obj'.find? name = none := by
        rw [hframe name fresh, hnew name List.mem_cons_self]
      refine ⟨obj', hobj, fun other hother => ?_, fun fill => ?_⟩
      · exact hframe other fun h => hother (List.mem_cons_of_mem _ h)
      · exact unpack_optional_missing hfind (hunpacks fill)
  | .optional name fresh fresh' t t' ts ts' f g hf hg, (some x, xs), hset, hsize =>
      obtain ⟨val, hval, hunpack⟩ := packs_understood hf x (hset.1 x rfl) (hsize.1 x rfl) memory
        ((obj.find? name).getD .null)
      obtain ⟨obj', hobj, hframe, hunpacks⟩ := packs_members_understood hg xs hset.2 hsize.2 memory
        (new_assign hnew fresh val) (new_assign hnew' fresh' val)
      have hfind : obj'.find? name = some val := by
        rw [hframe name fresh, Object.find_assign_same]
      refine ⟨obj', pack_member_then hval hobj, frame_assign hframe, fun fill => ?_⟩
      exact unpack_optional_found hfind (hunpack .zero) (hunpacks fill)
  | .nowOptional name fresh fresh' t t' ts ts' f g hf hg, (x, xs), hset, hsize =>
      obtain ⟨val, hval, hunpack⟩ :=
        packs_understood hf x hset.1 hsize.1 memory ((obj.find? name).getD .null)
      obtain ⟨obj', hobj, hframe, hunpacks⟩ := packs_members_understood hg xs hset.2 hsize.2 memory
        (new_assign hnew fresh val) (new_assign hnew' fresh' val)
      have hfind : obj'.find? name = some val := by
        rw [hframe name fresh, Object.find_assign_same]
      refine ⟨obj', pack_member_then hval hobj, frame_assign hframe, fun fill => ?_⟩
      exact unpack_optional_found hfind (hunpack .zero) (hunpacks fill)
  | .removed name fresh t ts ts' g hname hg, (x, xs), hset, hsize =>
      obtain ⟨val, hval, -⟩ :=
        packs t x hset.1 hsize.1 memory ((obj.find? name).getD .null)
      have hall : ∀ other ∈ name :: names', obj.find? other = none :=
        List.forall_mem_cons.mpr ⟨hnew name List.mem_cons_self, hnew'⟩
      obtain ⟨obj', hobj, hframe, hunpacks⟩ := packs_members_understood hg xs hset.2 hsize.2 memory
        (new_assign hnew fresh val) (new_assign hall hname val)
      exact ⟨obj', pack_member_then hval hobj, frame_assign hframe, hunpacks⟩
  | .removedOptional name fresh t ts ts' g hname hg, (none, xs), hset, hsize =>
      obtain ⟨obj', hobj, hframe, hunpacks⟩ := packs_members_understood hg xs hset.2 hsize.2 memory
        (fun other h => hnew other (List.mem_cons_of_mem _ h)) hnew'
      refine ⟨obj', hobj, fun other hother => ?_, hunpacks⟩
      exact hframe other fun h => hother (List.mem_cons_of_mem _ h)
  | .removedOptional name fresh t ts ts' g hname hg, (some x, xs), hset, hsize =>
      obtain ⟨val, hval, -⟩ :=
        packs t x (hset.1 x rfl) (hsize.1 x rfl) memory ((obj.find? name).getD .null)
      have hall : ∀ other ∈ name :: names', obj.find? other = none :=
        List.forall_mem_cons.mpr ⟨hnew name List.mem_cons_self, hnew'⟩
      obtain ⟨obj', hobj, hframe, hunpacks⟩ := packs_members_understood hg xs hset.2 hsize.2 memory
        (new_assign hnew fresh val) (new_assign hall hname val)
      exact ⟨obj', pack_member_then hval hobj, frame_assign hframe, hunpacks⟩
  | .added name fresh' t' ts ts' g hname hg, v, hset, hsize =>
      obtain ⟨obj', hobj, hframe, hunpacks⟩ := packs_members_understood hg v hset hsize memory hnew
        (fun other h => hnew' other (List.mem_cons_of_mem _ h))
      have hfind : obj'.find? name = none := by
        rw [hframe name hname, hnew' name List.mem_cons_self]
      exact ⟨obj', hobj, hframe, fun fill => unpack_optional_missing hfind (hunpacks fill)⟩
end

/-- What a writer of one version packs into any slot, a reader of another version that understands
it unpacks into a default-constructed target. -/
theorem versions_understood {α β : Type} {t : JsonType α} {t' : JsonType β} {f : α → β}
    (h : Understands t t' f) (v : α) (hset : RequiredSet t v) (hsize : Sized t v)
    (slot : Value) (memory fill : Memory) :
    ∃ jsv, pack t slot v = .ok jsv ∧ unpack memory t' jsv (construct fill t') = .ok (f v) := by
  obtain ⟨jsv, hpack, hunpack⟩ := packs_understood h v hset hsize memory slot
  exact ⟨jsv, hpack, hunpack fill⟩

/-- A newer version of the type of listings, where a pair has a wider number, and a title has been
added and the note removed. -/
def newListing : JsonType (Option (List (Int16 × Bool)) × Option Text × Unit) :=
  .struct (.cons (str "items") (by decide) (.required (.vector (.pair (.integer .int16) .bool)))
    (.optional (str "title") (by decide) .string .nil)) (Equiv.refl _)

/-- An old listing as a new one. -/
theorem versions_understood_listing :
    ∃ jsv, pack listing .null (some [(-3, true)], some (str "note"), ()) = .ok jsv ∧
      unpack .zero newListing jsv (construct .zero newListing) =
        .ok (some [(-3, true)], none, ()) := by
  have hpair := Understands.pair _ _ _ _ _ _ (.wider .int8 .int16 (by decide) (by decide))
    (.same .bool)
  have hitems := Understands.required _ _ _ (.vector _ _ _ hpair)
  have hnote : UnderstandsMembers (.optional (str "note") (by decide) .string .nil)
      (.optional (str "title") (by decide) .string .nil) fun _ => (none, ()) :=
    .removedOptional _ _ _ _ _ _ (by decide) (.added _ _ _ _ _ _ (by decide) .nil)
  have hall := UnderstandsMembers.both (str "items") (by decide) (by decide) _ _ _ _ _ _ hitems
    hnote
  refine versions_understood (.struct _ _ (Equiv.refl _) (Equiv.refl _) _ hall) _ ?_ ?_ _ _ _
  · exact ⟨⟨_, rfl, fun _ _ => ⟨trivial, trivial⟩⟩, fun _ _ => trivial, trivial⟩
  · refine ⟨fun x hx => ?_, fun _ _ => trivial, trivial⟩
    obtain rfl := Option.some.inj hx
    exact ⟨by decide, fun _ _ => ⟨trivial, trivial⟩⟩

end BoostRpc.Json
