import BoostRpc.Json.Codec

/-!
# The typed round trip

Unpacking what was packed gives the value back, by induction on the type: `Packs` says what
packing has to give for this, `packs_each` and `unpacks_vector` are the loops over containers, and
the members of a struct are found again because their names differ. The counters of the loops
bound the sizes of the containers (`Sized`).
-/

namespace BoostRpc.Json

open Ordered Raw

variable {α β γ : Type}

mutual
/-- Every `required` in the value is set. -/
def RequiredSet : {α : Type} → JsonType α → α → Prop
  | _, .bool, _ => True
  | _, .integer _, _ => True
  | _, .signedInt, _ => True
  | _, .unsignedInt, _ => True
  | _, .double, _ => True
  | _, .string, _ => True
  | _, .value, _ => True
  | _, .vector t, v => ∀ x ∈ v, RequiredSet t x
  | _, .stringMap t, v => ∀ x ∈ v.items, RequiredSet t x.2
  | _, .map _ k t, v => ∀ x ∈ v.items, RequiredSet k x.1 ∧ RequiredSet t x.2
  | _, .pair t u, v => RequiredSet t v.1 ∧ RequiredSet u v.2
  | _, .required t, v => ∃ x, v = some x ∧ RequiredSet t x
  | _, .sequence ts, v => RequiredSetElements ts v
  | _, .struct ts members, v => RequiredSetMembers ts (members v)

/-- `RequiredSet` for the elements of a sequence. -/
def RequiredSetElements : {α : Type} → Elements α → α → Prop
  | _, .nil, _ => True
  | _, .cons t ts, v => RequiredSet t v.1 ∧ RequiredSetElements ts v.2

/-- `RequiredSet` for the members of a struct. -/
def RequiredSetMembers : {names : List Text} → {α : Type} → Members names α → α → Prop
  | _, _, .nil, _ => True
  | _, _, .cons _ _ t ts, v => RequiredSet t v.1 ∧ RequiredSetMembers ts v.2
  | _, _, .optional _ _ t ts, v => (∀ x ∈ v.1, RequiredSet t x) ∧ RequiredSetMembers ts v.2
end

mutual
/-- Every vector and map in the value is smaller than the counters of the loops can count. -/
def Sized : {α : Type} → JsonType α → α → Prop
  | _, .bool, _ => True
  | _, .integer _, _ => True
  | _, .signedInt, _ => True
  | _, .unsignedInt, _ => True
  | _, .double, _ => True
  | _, .string, _ => True
  | _, .value, _ => True
  | _, .vector t, v => v.length < 2 ^ 32 ∧ ∀ x ∈ v, Sized t x
  | _, .stringMap t, v => v.items.length < 2 ^ 32 ∧ ∀ x ∈ v.items, Sized t x.2
  | _, .map _ k t, v => v.items.length < 2 ^ 32 ∧ ∀ x ∈ v.items, Sized k x.1 ∧ Sized t x.2
  | _, .pair t u, v => Sized t v.1 ∧ Sized u v.2
  | _, .required t, v => ∀ x ∈ v, Sized t x
  | _, .sequence ts, v => SizedElements ts v
  | _, .struct ts members, v => SizedMembers ts (members v)

/-- `Sized` for the elements of a sequence. -/
def SizedElements : {α : Type} → Elements α → α → Prop
  | _, .nil, _ => True
  | _, .cons t ts, v => Sized t v.1 ∧ SizedElements ts v.2

/-- `Sized` for the members of a struct. -/
def SizedMembers : {names : List Text} → {α : Type} → Members names α → α → Prop
  | _, _, .nil, _ => True
  | _, _, .cons _ _ t ts, v => Sized t v.1 ∧ SizedMembers ts v.2
  | _, _, .optional _ _ t ts, v => (∀ x ∈ v.1, Sized t x) ∧ SizedMembers ts v.2
end

/-! ## Packing and unpacking one item -/

/-- From any slot, `item` packs `x` into a value that `good` accepts. -/
def Packs (item : Value → α → Except Failure Value) (x : α) (good : Value → Prop) : Prop :=
  ∀ slot, ∃ val, item slot x = .ok val ∧ good val

/-- Whatever uninitialised memory holds, `x` is unpacked into a default-constructed object. -/
def Unpacks (memory : Memory) (t : JsonType α) (x : α) (val : Value) : Prop :=
  ∀ fill, unpack memory t val (construct fill t) = .ok x

theorem ok_bind (x : α) (f : α → Except Failure β) : (Except.ok x >>= f) = f x := rfl

theorem bind_ok_iff {r : Except Failure α} {f : α → Except Failure β} {y : β} :
    (r >>= f) = .ok y ↔ ∃ x, r = .ok x ∧ f x = .ok y := by
  constructor
  · intro h
    cases r with
    | ok x => exact ⟨x, rfl, h⟩
    | error e => cases h
  · intro h
    obtain ⟨x, rfl, hx⟩ := h
    exact hx

/-- A member is packed as its value is. -/
theorem pack_member_ok {obj : Object} {name : Text} {item : Value → Except Failure Value}
    {val : Value} (h : item ((obj.find? name).getD .null) = .ok val) :
    packMember obj name item = .ok (obj.assign name val) := by
  unfold packMember
  rw [h]
  rfl

/-- What is found in an object is what its member holds. -/
theorem Object.at_of_find {obj : Object} {name : Text} {val : Value}
    (h : obj.find? name = some val) :
    obj.at name = .ok val := by
  unfold Object.at
  rw [h]

/-- The names of the other members stay new. -/
theorem new_assign {obj : Object} {name : Text} {names : List Text}
    (hnew : ∀ other ∈ name :: names, obj.find? other = none) (hfresh : name ∉ names) (val : Value) :
    ∀ other ∈ names, (obj.assign name val).find? other = none := by
  intro other hother
  have hne : other ≠ name := fun h => hfresh (h ▸ hother)
  rw [Object.find_assign_other hne]
  exact hnew other (List.mem_cons_of_mem _ hother)

/-- What is left alone behind an assignment and is not assigned to is left alone. -/
theorem frame_assign {obj obj' : Object} {name : Text} {names : List Text} {val : Value}
    (hframe : ∀ other, other ∉ names → obj'.find? other = (obj.assign name val).find? other) :
    ∀ other, other ∉ name :: names → obj'.find? other = obj.find? other := by
  intro other hother
  have hne : other ≠ name := fun h => hother (h ▸ List.mem_cons_self)
  rw [hframe other (fun h => hother (List.mem_cons_of_mem _ h)), Object.find_assign_other hne]

/-- An integer comes back. -/
theorem unpack_integer (i : Integer α) (n : α) :
    unpackInteger i (.int (i.toInt n)) = .ok n := by
  have hrange := i.inRange n
  show i.ofDouble (.finite (i.toInt n)) = .ok n
  rw [Integer.of_double_finite, truncate_int, if_pos hrange, i.ofInt_toInt]

/-! ## Containers -/

/-- The loop over the elements fills the elements of the array from the counter on. -/
theorem packs_each {item : Value → α → Except Failure Value} {good : α → Value → Prop}
    {xs : List α} (hitem : ∀ x ∈ xs, ∃ val, item .null x = .ok val ∧ good x val)
    (front : List Value) (hsize : front.length + xs.length < 2 ^ 32) :
    ∃ vals, packEach item xs (UInt32.ofNat front.length)
        (front ++ List.replicate xs.length .null) = .ok (front ++ vals) ∧
      List.Forall₂ good xs vals := by
  induction xs generalizing front with
  | nil => exact ⟨[], by simp [packEach, pure, Except.pure], .nil⟩
  | cons x xs ih =>
      rw [List.length_cons] at hsize
      obtain ⟨val, hval, hgood⟩ := hitem x List.mem_cons_self
      have hfront : (front ++ [val]).length = front.length + 1 := by simp
      obtain ⟨vals, hvals, hall⟩ :=
        ih (fun y hy => hitem y (List.mem_cons_of_mem _ hy)) (front ++ [val]) (by omega)
      refine ⟨val :: vals, ?_, .cons hgood hall⟩
      have hindex : (UInt32.ofNat front.length).toNat = front.length :=
        UInt32.toNat_ofNat_of_lt' (show front.length < 2 ^ 32 by omega)
      have hnext : UInt32.ofNat front.length + 1 = UInt32.ofNat (front ++ [val]).length := by
        rw [hfront, UInt32.ofNat_add]
        rfl
      unfold packEach
      rw [hindex, List.length_cons, List.replicate_succ]
      simp only [List.getElem?_append_right (Nat.le_refl _), Nat.sub_self, List.getElem?_cons_zero,
        hval, ok_bind, List.set_append_right _ _ (Nat.le_refl _), List.set_cons_zero, hnext]
      simpa using hvals

/-- A container is packed into an array with a value for each of its elements. -/
theorem packs_array (item : Value → α → Except Failure Value) (good : α → Value → Prop)
    {xs : List α} (hitem : ∀ x ∈ xs, ∃ val, item .null x = .ok val ∧ good x val)
    (hsize : xs.length < 2 ^ 32) :
    ∃ vals, packArray item xs = .ok (.array vals) ∧ List.Forall₂ good xs vals := by
  obtain ⟨vals, hvals, hall⟩ := packs_each hitem [] (by simpa using hsize)
  refine ⟨vals, ?_, hall⟩
  have hvals : packEach item xs 0 (List.replicate xs.length .null) = .ok vals := hvals
  unfold packArray
  rw [hvals]
  rfl

/-- The loop over the items of a map appends a member for each of them, since no key occurs
twice. -/
theorem packs_items {item : Value → β → Except Failure Value} (good : β → Value → Prop)
    {xs : List (Text × β)} (hitem : ∀ x ∈ xs, Packs item x.2 (good x.2)) {o : Object}
    (hkeys : xs.Pairwise (fun x y => x.1 ≠ y.1)) (hnew : ∀ x ∈ xs, o.find? x.1 = none) :
    ∃ vals, packItems item xs o = .ok (o ++ vals) ∧
      List.Forall₂ (fun x entry => entry.1 = x.1 ∧ good x.2 entry.2) xs vals := by
  induction xs generalizing o with
  | nil => exact ⟨[], by simp [packItems, pure, Except.pure], .nil⟩
  | cons x xs ih =>
      obtain ⟨val, hval, hgood⟩ := hitem x List.mem_cons_self ((o.find? x.1).getD .null)
      have hhead := (List.pairwise_cons.mp hkeys).1
      have happend := Object.assign_new (hnew x List.mem_cons_self) val
      have hnew' : ∀ y ∈ xs, (o ++ [(x.1, val)] : Object).find? y.1 = none := by
        intro y hy
        rw [← happend, Object.find_assign_other (hhead y hy).symm]
        exact hnew y (List.mem_cons_of_mem _ hy)
      obtain ⟨vals, hvals, hall⟩ := ih (fun y hy => hitem y (List.mem_cons_of_mem _ hy))
        (List.pairwise_cons.mp hkeys).2 hnew'
      refine ⟨(x.1, val) :: vals, ?_, .cons ⟨rfl, hgood⟩ hall⟩
      unfold packItems
      rw [pack_member_ok hval, ok_bind, happend, hvals]
      simp

/-- The loop over an array appends the elements to the vector. -/
theorem unpacks_vector {memory : Memory} {t : JsonType α} {xs : List α} {vals : List Value}
    (hall : List.Forall₂ (Unpacks memory t) xs vals) (front : List α) :
    vals.foldlM (fun v val => do
        let x ← unpack memory t val (construct memory t)
        Except.ok (v ++ [x])) front = .ok (front ++ xs) := by
  induction hall generalizing front with
  | nil => simp [pure, Except.pure]
  | cons hx _ ih =>
      rw [List.foldlM_cons, hx memory, ok_bind, ok_bind, ih]
      simp

/-- A loop that adds the items of a container in ascending order gives the container. -/
theorem unpacks_items {κ : Type} {cmp : Compare κ} {key : β → κ} {v : Items cmp key}
    {body : Items cmp key → γ → Except Failure (Items cmp key)} {good : β → γ → Prop}
    (hbody : ∀ xs x ys (h : xs ++ x :: ys = v.items) val, good x val →
      body (v.front h) val = .ok (v.front (show (xs ++ [x]) ++ ys = v.items by simpa using h)))
    {ys : List β} {vals : List γ} (hall : List.Forall₂ good ys vals) {xs : List β}
    (h : xs ++ ys = v.items) : vals.foldlM body (v.front h) = .ok v := by
  induction hall generalizing xs with
  | nil =>
      have hall : v.front h = v := Items.ext (by rw [← h, List.append_nil]; rfl)
      rw [hall]
      rfl
  | cons hx _ ih =>
      rw [List.foldlM_cons, hbody _ _ _ h _ hx, ok_bind]
      exact ih _

/-- A loop over fewer than 2^32 elements ends. -/
theorem counted_loop_of_lt {body : β → γ → Except Failure β} {xs : List γ} {v : β}
    (h : xs.length < 2 ^ 32) : countedLoop body xs v = xs.foldlM body v := if_pos h

/-! ## Pairs -/

/-- A pair is packed into an object with its two members. -/
theorem packs_pair {first : Value → α → Except Failure Value}
    {second : Value → β → Except Failure Value} {good : α → Value → Prop} {good' : β → Value → Prop}
    {v : α × β} (hfirst : Packs first v.1 (good v.1)) (hsecond : Packs second v.2 (good' v.2)) :
    ∃ x y, packPair first second v = .ok (.object [(str "first", x), (str "second", y)]) ∧
      good v.1 x ∧ good' v.2 y := by
  obtain ⟨x, hx, hgoodx⟩ := hfirst .null
  obtain ⟨y, hy, hgoody⟩ := hsecond .null
  refine ⟨x, y, ?_, hgoodx, hgoody⟩
  have hobj : packMember [] (str "first") (fun slot => first slot v.1) =
      .ok [(str "first", x)] := pack_member_ok hx
  have hne : str "first" ≠ str "second" := by decide
  have hnew : Object.find? [(str "first", x)] (str "second") = none := by
    simp [Object.find?, hne]
  have hsecond : second ((Object.find? [(str "first", x)] (str "second")).getD .null) v.2 =
      .ok y := by
    rw [hnew]
    exact hy
  unfold packPair
  rw [hobj, ok_bind, pack_member_ok hsecond, Object.assign_new hnew]
  rfl

/-- The members of a pair are found in the object. -/
theorem unpack_pair_ok {first : Value → α → Except Failure α}
    {second : Value → β → Except Failure β} {x y : Value} {v w : α × β}
    (hfirst : first x v.1 = .ok w.1) (hsecond : second y v.2 = .ok w.2) :
    unpackPair first second (.object [(str "first", x), (str "second", y)]) v = .ok w := by
  have hne : str "first" ≠ str "second" := by decide
  have hat : Value.at (.object [(str "first", x), (str "second", y)]) (str "first") = .ok x := by
    simp [Value.at, Object.at, Object.find?]
  have hat' : Value.at (.object [(str "first", x), (str "second", y)]) (str "second") = .ok y := by
    simp [Value.at, Object.at, Object.find?, hne]
  unfold unpackPair
  rw [hat, raised_ok, ok_bind, hfirst, ok_bind, hat', raised_ok, ok_bind, hsecond]
  rfl

/-! ## The round trip -/

/-- The keys of a map differ. -/
theorem keys_ne {κ ν : Type} {cmp : Compare κ} (m : OrderedMap cmp ν) :
    m.items.Pairwise (fun x y => x.1 ≠ y.1) := by
  apply m.sorted.imp
  intro x y hlt heq
  rw [heq, cmp.irrefl] at hlt
  exact absurd hlt (by simp)

mutual
/-- What is packed is unpacked again. -/
theorem packs {α : Type} (t : JsonType α) (v : α) (hset : RequiredSet t v) (hsize : Sized t v)
    (memory : Memory) : Packs (fun slot x => pack t slot x) v (Unpacks memory t v) := by
  intro slot
  match t, v with
  | .bool, v => exact ⟨.bool v, rfl, fun _ => rfl⟩
  | .integer i, v => exact ⟨.int (i.toInt v), rfl, fun _ => unpack_integer i v⟩
  | .signedInt, v => exact ⟨.int v.toInt, rfl, fun _ => unpack_integer .int32 v⟩
  | .unsignedInt, v => exact ⟨.int v.toNat, rfl, fun _ => unpack_integer .uint32 v⟩
  | .double, v => exact ⟨.number v, rfl, fun _ => rfl⟩
  | .string, v => exact ⟨.string v, rfl, fun _ => rfl⟩
  | .value, v => exact ⟨v, rfl, fun _ => rfl⟩
  | .vector t, v =>
      obtain ⟨vals, hvals, hall⟩ := packs_array _ (Unpacks memory t)
        (fun x hx => packs t x (hset x hx) (hsize.2 x hx) memory .null) hsize.1
      refine ⟨.array vals, hvals, ?_⟩
      intro fill
      rw [unpack, construct, show raised (Value.array vals).toArray = .ok vals from rfl, ok_bind,
        counted_loop_of_lt (hall.length_eq ▸ hsize.1)]
      exact unpacks_vector hall []
  | .stringMap t, v =>
      obtain ⟨vals, hvals, hall⟩ := packs_items (Unpacks memory t)
        (fun x hx => packs t x.2 (hset x hx) (hsize.2 x hx) memory) (keys_ne v)
        (fun _ _ => rfl : ∀ x ∈ v.items, Object.find? [] x.1 = none)
      refine ⟨.object vals, ?_, ?_⟩
      · show pack (.stringMap t) slot v = .ok (.object vals)
        rw [pack, hvals]
        rfl
      intro fill
      unfold unpack
      rw [show raised (Value.object vals).toObject = .ok vals from rfl, ok_bind,
        counted_loop_of_lt (hall.length_eq ▸ hsize.1)]
      apply unpacks_items _ hall (List.nil_append v.items)
      intro xs x ys h entry hentry
      rw [hentry.1, OrderedMap.slot_front v h, hentry.2 .zero, ok_bind]
      exact congrArg Except.ok (OrderedMap.assign_front v h)
  | .map less k t, v =>
      have hpairs : ∀ x ∈ v.items, ∃ val,
          packPair (fun slot y => pack k slot y) (fun slot y => pack t slot y) x = .ok val ∧
            ∃ y z, val = .object [(str "first", y), (str "second", z)] ∧
              Unpacks memory k x.1 y ∧ Unpacks memory t x.2 z := by
        intro x hx
        obtain ⟨y, z, hpair, hy, hz⟩ := packs_pair
          (packs k x.1 (hset x hx).1 (hsize.2 x hx).1 memory)
          (packs t x.2 (hset x hx).2 (hsize.2 x hx).2 memory)
        exact ⟨_, hpair, y, z, rfl, hy, hz⟩
      have harray : ∃ vals, packArray (fun _ x =>
            packPair (fun slot y => pack k slot y) (fun slot y => pack t slot y) x) v.items =
              .ok (.array vals) ∧
          List.Forall₂ (fun x val => ∃ y z, val = .object [(str "first", y), (str "second", z)] ∧
            Unpacks memory k x.1 y ∧ Unpacks memory t x.2 z) v.items vals :=
        packs_array _ _ hpairs hsize.1
      obtain ⟨vals, hvals, hall⟩ := harray
      refine ⟨.array vals, hvals, ?_⟩
      intro fill
      unfold unpack
      rw [show raised (Value.array vals).toArray = .ok vals from rfl, ok_bind,
        counted_loop_of_lt (hall.length_eq ▸ hsize.1)]
      apply unpacks_items _ hall (List.nil_append v.items)
      intro xs x ys h val hval
      obtain ⟨y, z, rfl, hy, hz⟩ := hval
      rw [unpack_pair_ok (w := x) (hy .zero) (hz .zero), ok_bind]
      exact congrArg Except.ok (OrderedMap.assign_front v h)
  | .pair t u, v =>
      obtain ⟨y, z, hpair, hy, hz⟩ :=
        packs_pair (packs t v.1 hset.1 hsize.1 memory) (packs u v.2 hset.2 hsize.2 memory)
      exact ⟨_, hpair, fun fill => unpack_pair_ok (hy .zero) (hz .zero)⟩
  | .required t, v =>
      obtain ⟨x, rfl, hx⟩ := hset
      obtain ⟨val, hval, hunpack⟩ := packs t x hx (hsize x rfl) memory slot
      refine ⟨val, hval, ?_⟩
      intro fill
      unfold unpack
      rw [hunpack .zero]
      rfl
  | .sequence ts, v =>
      obtain ⟨vals, hvals, hunpack⟩ := packs_sequence ts v hset hsize memory []
      refine ⟨.array vals, ?_, ?_⟩
      · show pack (.sequence ts) slot v = .ok (.array vals)
        rw [pack, hvals]
        rfl
      intro fill
      unfold unpack construct
      exact (hunpack fill).2
  | .struct ts members, v =>
      obtain ⟨obj, hobj, _, hunpack⟩ := packs_object ts (members v) hset hsize memory
        (fun _ _ => rfl : ∀ name ∈ _, Object.find? [] name = none)
      refine ⟨.object obj, ?_, ?_⟩
      · show pack (.struct ts members) slot v = .ok (.object obj)
        rw [pack, hobj]
        rfl
      intro fill
      unfold unpack construct
      rw [show raised (Value.object obj).toObject = .ok obj from rfl, ok_bind,
        Equiv.apply_symm_apply, hunpack fill, ok_bind, Equiv.symm_apply_apply]
      rfl

/-- The elements of a sequence are packed behind those in front of them and unpacked again. -/
theorem packs_sequence {α : Type} (ts : Elements α) (v : α) (hset : RequiredSetElements ts v)
    (hsize : SizedElements ts v) (memory : Memory) (front : List Value) :
    ∃ vals, packSequence ts front v = .ok (front ++ vals) ∧
      ∀ fill, unpackSequence memory ts (.before vals) (constructElements fill ts) = .ok v ∧
        unpackSequence memory ts (.begin vals) (constructElements fill ts) = .ok v := by
  match ts, v with
  | .nil, () => exact ⟨[], by simp [packSequence, pure, Except.pure], fun _ => ⟨rfl, rfl⟩⟩
  | .cons t ts, (x, xs) =>
      obtain ⟨val, hval, hunpack⟩ := packs t x hset.1 hsize.1 memory .null
      obtain ⟨vals, hvals, hunpacks⟩ := packs_sequence ts xs hset.2 hsize.2 memory (front ++ [val])
      have hcons : ∀ fill, unpackSequence memory (.cons t ts) (.before (val :: vals))
          (constructElements fill (.cons t ts)) = .ok (x, xs) := by
        intro fill
        unfold unpackSequence constructElements
        rw [hunpack fill, ok_bind, (hunpacks fill).1]
        rfl
      refine ⟨val :: vals, ?_, fun fill => ⟨hcons fill, hcons fill⟩⟩
      have hval : pack t .null x = .ok val := hval
      unfold packSequence
      rw [hval, ok_bind, hvals, List.append_assoc]
      rfl

/-- The members of a struct are packed into an object without them and found in it again. -/
theorem packs_object {names : List Text} {α : Type} (ts : Members names α) (v : α)
    (hset : RequiredSetMembers ts v) (hsize : SizedMembers ts v) (memory : Memory) {obj : Object}
    (hnew : ∀ name ∈ names, obj.find? name = none) :
    ∃ obj', packObject ts obj v = .ok obj' ∧
      (∀ name, name ∉ names → obj'.find? name = obj.find? name) ∧
      ∀ fill, unpackObject memory ts obj' (constructMembers fill ts) = .ok v := by
  match ts, v with
  | .nil, () => exact ⟨obj, rfl, fun _ _ => rfl, fun _ => rfl⟩
  | .cons name fresh t ts, (x, xs) =>
      obtain ⟨val, hval, hunpack⟩ := packs t x hset.1 hsize.1 memory ((obj.find? name).getD .null)
      obtain ⟨obj', hobj, hframe, hunpacks⟩ := packs_object ts xs hset.2 hsize.2 memory
        (new_assign hnew fresh val)
      have hfind : obj'.find? name = some val := by
        rw [hframe name fresh, Object.find_assign_same]
      refine ⟨obj', ?_, frame_assign hframe, ?_⟩
      · unfold packObject
        rw [pack_member_ok hval]
        exact hobj
      intro fill
      unfold unpackObject constructMembers Object.contains
      rw [hfind, Object.at_of_find hfind, Option.isSome_some, if_pos rfl, raised_ok, ok_bind,
        hunpack fill, ok_bind, hunpacks fill]
      rfl
  | .optional name fresh t ts, (none, xs) =>
      obtain ⟨obj', hobj, hframe, hunpacks⟩ := packs_object ts xs hset.2 hsize.2 memory
        (fun other h => hnew other (List.mem_cons_of_mem _ h))
      have hfind : obj'.find? name = none := by
        rw [hframe name fresh, hnew name List.mem_cons_self]
      refine ⟨obj', hobj, ?_, ?_⟩
      · intro other hother
        exact hframe other (fun h => hother (List.mem_cons_of_mem _ h))
      intro fill
      unfold unpackObject constructMembers Object.contains
      rw [hfind, Option.isSome_none, if_neg (by simp), ok_bind, hunpacks fill]
      rfl
  | .optional name fresh t ts, (some x, xs) =>
      obtain ⟨val, hval, hunpack⟩ :=
        packs t x (hset.1 x rfl) (hsize.1 x rfl) memory ((obj.find? name).getD .null)
      obtain ⟨obj', hobj, hframe, hunpacks⟩ := packs_object ts xs hset.2 hsize.2 memory
        (new_assign hnew fresh val)
      have hfind : obj'.find? name = some val := by
        rw [hframe name fresh, Object.find_assign_same]
      refine ⟨obj', ?_, frame_assign hframe, ?_⟩
      · unfold packObject
        rw [pack_member_ok hval]
        exact hobj
      intro fill
      unfold unpackObject constructMembers Object.contains
      rw [hfind, Object.at_of_find hfind, Option.isSome_some, if_pos rfl, raised_ok, ok_bind,
        hunpack .zero, ok_bind, ok_bind, hunpacks fill]
      rfl
end

/-- Unpacking into a default-constructed target what was packed into any slot gives the value
back, for values whose required fields are set and whose vectors and maps have fewer than 2^32
elements. -/
theorem typed_round_trip (t : JsonType α) (v : α) (hset : RequiredSet t v) (hsize : Sized t v)
    (slot : Value) (memory fill : Memory) :
    ∃ jsv, pack t slot v = .ok jsv ∧ unpack memory t jsv (construct fill t) = .ok v := by
  obtain ⟨jsv, hpack, hunpack⟩ := packs t v hset hsize memory slot
  exact ⟨jsv, hpack, hunpack fill⟩

/-- The type of structs with a required vector of pairs and an optional string. -/
def listing : JsonType (Option (List (Int8 × Bool)) × Option Text × Unit) :=
  .struct (.cons (str "items") (by decide) (.required (.vector (.pair (.integer .int8) .bool)))
    (.optional (str "note") (by decide) .string .nil)) (Equiv.refl _)

/-- A struct with a vector of one pair and without the optional string. -/
theorem typed_round_trip_struct :
    ∃ jsv, pack listing (.bool true) (some [(-3, true)], none, ()) = .ok jsv ∧
      unpack .zero listing jsv (construct .zero listing) = .ok (some [(-3, true)], none, ()) := by
  apply typed_round_trip
  · exact ⟨⟨_, rfl, fun _ _ => ⟨trivial, trivial⟩⟩, nofun, trivial⟩
  · refine ⟨fun x hx => ?_, nofun, trivial⟩
    obtain rfl := Option.some.inj hx
    exact ⟨by decide, fun _ _ => ⟨trivial, trivial⟩⟩

/-! ## Containers that are too large -/

/-- The loop over the elements does not change the size of the array. -/
theorem length_pack_each {item : Value → α → Except Failure Value} {xs : List α} {i : UInt32}
    {a vals : List Value} (h : packEach item xs i a = .ok vals) : vals.length = a.length := by
  induction xs generalizing i a with
  | nil =>
      obtain rfl := Except.ok.inj h
      rfl
  | cons x xs ih =>
      unfold packEach at h
      split at h
      · rename_i slot hslot
        obtain ⟨val, -, hrest⟩ := bind_ok_iff.mp h
        rw [ih hrest, List.length_set]
      · exact absurd h nofun

/-- An array has as many elements as what it was packed from. -/
theorem length_pack_array {item : Value → α → Except Failure Value} {xs : List α} {jsv : Value}
    (h : packArray item xs = .ok jsv) : ∃ a, jsv = .array a ∧ a.length = xs.length := by
  obtain ⟨a, ha, hjsv⟩ := bind_ok_iff.mp h
  refine ⟨a, (Except.ok.inj hjsv).symm, ?_⟩
  rw [length_pack_each ha, List.length_replicate]

/-- A loop over 2^32 elements or more does not give a result. -/
theorem counted_loop_ne_ok {body : β → γ → Except Failure β} {xs : List γ} (v w : β)
    (h : 2 ^ 32 ≤ xs.length) : countedLoop body xs v ≠ .ok w := by
  intro hloop
  unfold countedLoop at hloop
  rw [if_neg (Nat.not_lt.mpr h)] at hloop
  obtain ⟨u, -, hthrow⟩ := bind_ok_iff.mp hloop
  exact absurd hthrow nofun

/-- A vector of 2^32 elements or more is not unpacked. -/
theorem unpack_long_vector {memory : Memory} {t : JsonType α} {v : List α} (h : 2 ^ 32 ≤ v.length)
    {slot jsv : Value} (hpack : pack (.vector t) slot v = .ok jsv) (target w : List α) :
    unpack memory (.vector t) jsv target ≠ .ok w := by
  unfold pack at hpack
  obtain ⟨vals, rfl, hlength⟩ := length_pack_array hpack
  unfold unpack
  rw [show raised (Value.array vals).toArray = .ok vals from rfl, ok_bind]
  exact counted_loop_ne_ok _ _ (hlength ▸ h)

/-- The `std::vector<bool>` of 2^32 zeros. -/
def zeros : List Bool := List.replicate (2 ^ 32) false

/-- The vector of 2^32 zeros has no required fields and does not come back. -/
theorem typed_long_vector :
    RequiredSet (.vector .bool) zeros ∧
      ¬ ∃ jsv, pack (.vector .bool) .null zeros = .ok jsv ∧
        unpack .zero (.vector .bool) jsv (construct .zero (.vector .bool)) = .ok zeros := by
  constructor
  · exact fun _ _ => trivial
  · rintro ⟨jsv, hpack, hunpack⟩
    have hlength : 2 ^ 32 ≤ zeros.length := by
      unfold zeros
      rw [List.length_replicate]
    exact unpack_long_vector hlength hpack _ _ hunpack

end BoostRpc.Json
