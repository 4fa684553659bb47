import BoostRpc.Raw.Format

/-!
# The raw round trip

`unpack_packed` shows by induction on the layout that unpacking into a default-constructed target
undoes packing, for `plain` layouts and values whose sizes fit into the `unsigned_int` they are
written as. `round_trip` is the same for values whose encoding is shorter than 2^32 bytes: then
only containers whose elements take no byte can be too long.
-/

namespace BoostRpc.Raw

open Ordered Base128

variable {k : Kind} {α : Type}

/-- The layouts without optional struct members, signed integers and required values. -/
def plain : {k : Kind} → {α : Type} → Caller → Layout k α → Bool
  | _, _, _, .bool => true
  | _, _, _, .pod _ => true
  | _, _, _, .unsignedInt => true
  | _, _, _, .signedInt => false
  | _, _, _, .string => true
  | _, _, _, .chars => true
  | _, _, _, .container t => plain .pack t
  | _, _, _, .set _ t => plain .pack t
  | _, _, _, .map _ k t => plain .pack k && plain .pack t
  | _, _, .pack, .optional t => plain .pack t
  | _, _, .packHelper, .optional _ => false
  | _, _, _, .required _ => false
  | _, _, _, .sequence ts => plain .pack ts
  | _, _, _, .struct ts _ => plain .packHelper ts
  | _, _, _, .nil => true
  | _, _, c, .cons t ts => plain c t && plain c ts

/-- All strings and containers in a value have a size below 2^32. -/
def Counted : {k : Kind} → {α : Type} → Layout k α → α → Prop
  | _, _, .bool, _ => True
  | _, _, .pod _, _ => True
  | _, _, .unsignedInt, _ => True
  | _, _, .signedInt, _ => True
  | _, _, .string, v => v.length < 2 ^ 32
  | _, _, .chars, v => v.length < 2 ^ 32
  | _, _, .container t, v => v.length < 2 ^ 32 ∧ ∀ x ∈ v, Counted t x
  | _, _, .set _ t, v => v.items.length < 2 ^ 32 ∧ ∀ x ∈ v.items, Counted t x
  | _, _, .map _ k t, v =>
      v.items.length < 2 ^ 32 ∧ ∀ x ∈ v.items, Counted k x.1 ∧ Counted t x.2
  | _, _, .optional t, v => ∀ x ∈ v, Counted t x
  | _, _, .required t, v => ∀ x ∈ v, Counted t x
  | _, _, .sequence ts, v => Counted ts v
  | _, _, .struct ts members, v => Counted ts (members v)
  | _, _, .nil, _ => True
  | _, _, .cons t ts, v => Counted t v.1 ∧ Counted ts v.2

/-! ## Reading single values -/

/-- The size of a container comes back. -/
theorem to_nat_count {n : Nat} (h : n < 2 ^ 32) : (UInt32.ofNat n).toNat = n :=
  UInt32.toNat_ofNat_of_lt' h

/-- The elements of a container come back when each of them does. -/
theorem reads_each {β : Type} {item : β → Reader β} {f : β → Option Text} {x₀ : β} {xs : List β}
    (hitem : ∀ x ∈ xs, ∀ bytes, f x = some bytes → Reads (item x₀) bytes x) {bytes : Text}
    (hbytes : packedAll f xs = some bytes) :
    Reads (unpackEach item (List.replicate xs.length x₀)) bytes xs := by
  induction xs generalizing bytes with
  | nil =>
      cases hbytes
      exact Reads.pure []
  | cons x xs ih =>
      obtain ⟨a, b, ha, hb, rfl⟩ := packed_all_cons.mp hbytes
      have htail := ih (fun y hy => hitem y (List.mem_cons_of_mem _ hy)) hb
      exact (hitem x List.mem_cons_self a ha).bind (htail.map (x :: ·))

/-- The items of an ordered container come back when each of them is added to the ones before
it. -/
theorem reads_items {κ β : Type} {cmp : Compare κ} {key : β → κ} {v : Items cmp key}
    {body : Items cmp key → Reader (Items cmp key)} {f : β → Option Text}
    (hbody : ∀ xs x ys (h : xs ++ x :: ys = v.items) bytes, f x = some bytes →
      Reads (body (v.front h)) bytes
        (v.front (show (xs ++ [x]) ++ ys = v.items by simpa using h)))
    (ys : List β) {xs : List β} (h : xs ++ ys = v.items) {bytes : Text}
    (hbytes : packedAll f ys = some bytes) :
    Reads (repeated body ys.length (v.front h)) bytes v := by
  induction ys generalizing xs bytes with
  | nil =>
      cases hbytes
      have hall : v.front h = v := Items.ext (by rw [← h, List.append_nil]; rfl)
      rw [hall]
      exact Reads.pure v
  | cons x ys ih =>
      obtain ⟨a, b, ha, hb, rfl⟩ := packed_all_cons.mp hbytes
      exact (hbody xs x ys h a ha).bind (ih _ hb)

/-- All items of an ordered container come back. -/
theorem reads_all_items {κ β : Type} {cmp : Compare κ} {key : β → κ} {v : Items cmp key}
    {body : Items cmp key → Reader (Items cmp key)} {f : β → Option Text}
    (hbody : ∀ xs x ys (h : xs ++ x :: ys = v.items) bytes, f x = some bytes →
      Reads (body (v.front h)) bytes
        (v.front (show (xs ++ [x]) ++ ys = v.items by simpa using h)))
    {bytes : Text} (hbytes : packedAll f v.items = some bytes) :
    Reads (repeated body v.items.length .empty) bytes v :=
  reads_items hbody v.items (List.nil_append v.items) hbytes

variable [Machine]

theorem reads_bool (v : Bool) : Reads unpackBool [if v then 1 else 0] v := by
  have hv : ([if v then 1 else 0] != ([0] : Text)) = v := by cases v <;> rfl
  have hread : Reads unpackBool [if v then 1 else 0] ([if v then 1 else 0] != ([0] : Text)) :=
    (reads_read (by decide) _ ⟨[if v then 1 else 0], rfl⟩).map (fun p => p.2.toList != [0])
  rw [hv] at hread
  exact hread

theorem reads_chars {v : Text} (hv : v.length < 2 ^ 32) (w : Text) :
    Reads (unpackChars w) (code (UInt32.ofNat v.length).toNat ++ v) v := by
  apply (reads_unsigned (UInt32.ofNat v.length)).bind
  have hlength := to_nat_count hv
  generalize UInt32.ofNat v.length = size at hlength ⊢
  split
  · rename_i hzero
    have hv : v = [] := List.length_eq_zero_iff.mp (hlength.symm.trans hzero)
    have hw : resize size.toNat 0 w = v := by
      rw [hv]
      exact List.length_eq_zero_iff.mp ((length_resize _ _ _).trans hzero)
    show Reads (Pure.pure (resize size.toNat 0 w)) v v
    rw [hw, hv]
    exact Reads.pure []
  · rename_i hzero
    exact (reads_read (Nat.pos_of_ne_zero hzero) _ ⟨v, hlength.symm⟩).map (·.2.toList)

/-- Unpacking into a default-constructed target undoes packing. -/
theorem unpack_packed {c : Caller} (t : Layout k α) (hplain : plain c t = true) {v : α}
    (hcount : Counted t v) {bytes : Text} (hpack : packed c t v = some bytes) (fill : Byte) :
    Reads (unpack t (construct fill t)) bytes v := by
  induction t generalizing c bytes fill with
  | bool =>
      cases hpack
      exact reads_bool v
  | pod scalar =>
      cases hpack
      have hread := (reads_read scalar.size_pos (scalar.repr (construct fill (.pod scalar)))
        (scalar.repr v)).map (fun p => scalar.repr.symm p.2)
      rw [Equiv.symm_apply_apply] at hread
      exact hread
  | unsignedInt =>
      rw [packed_unsigned] at hpack
      cases hpack
      exact reads_unsigned v
  | signedInt => cases hplain
  | string =>
      rw [packed_string] at hpack
      cases hpack
      exact reads_chars hcount []
  | chars =>
      rw [packed_chars] at hpack
      cases hpack
      exact reads_chars hcount []
  | container t ih =>
      rw [packed_container] at hpack
      obtain ⟨b, hb, rfl⟩ := Option.map_eq_some_iff.mp hpack
      apply (reads_unsigned _).bind
      rw [to_nat_count hcount.1, construct, resize_nil]
      exact reads_each (fun x hx bytes hbytes => ih hplain (hcount.2 x hx) hbytes 0) hb
  | set cmp t ih =>
      rw [packed_set, packed_container] at hpack
      obtain ⟨b, hb, rfl⟩ := Option.map_eq_some_iff.mp hpack
      apply (reads_unsigned _).bind
      rw [to_nat_count hcount.1]
      apply reads_all_items _ hb
      intro xs x ys h bytes hbytes
      have hx : x ∈ v.items := h ▸ List.mem_append_right xs List.mem_cons_self
      have hread := (ih hplain (hcount.2 x hx) hbytes Machine.junk).map
        (OrderedSet.insert (v.front h))
      rw [OrderedSet.insert, v.alter_front _ h] at hread
      exact hread
  | map cmp k t ihk iht =>
      have hboth := Bool.and_eq_true_iff.mp hplain
      rw [packed_map] at hpack
      obtain ⟨b, hb, rfl⟩ := Option.map_eq_some_iff.mp hpack
      apply (reads_unsigned _).bind
      rw [to_nat_count hcount.1]
      apply reads_all_items _ hb
      intro xs x ys h bytes hbytes
      have hx : x ∈ v.items := h ▸ List.mem_append_right xs List.mem_cons_self
      obtain ⟨a, b, ha, hb, rfl⟩ := packed_pair_eq_some.mp hbytes
      -- The key is new, so that its value is read into a fresh one.
      have hslot := OrderedMap.slot_front v h (construct 0 t)
      have hread := (iht hboth.2 (hcount.2 x hx).2 hb 0).map (OrderedMap.assign (v.front h) x.1)
      rw [OrderedMap.assign_front v h] at hread
      apply (ihk hboth.1 (hcount.2 x hx).1 ha Machine.junk).bind
      rw [hslot]
      exact hread
  | optional t ih =>
      cases c with
      | packHelper => cases hplain
      | pack =>
          cases v with
          | none =>
              cases hpack
              exact (reads_bool false).bind (Reads.pure none)
          | some x =>
              rw [packed_some] at hpack
              obtain ⟨b, hb, rfl⟩ := Option.map_eq_some_iff.mp hpack
              have hread := (ih hplain (hcount x rfl) hb 0).map some
              exact (reads_bool true).bind hread
  | required t ih => cases hplain
  | sequence ts ih => exact ih hplain hcount hpack fill
  | struct ts members ih =>
      have hread := (ih hplain hcount hpack fill).map members.symm
      rw [Equiv.symm_apply_apply] at hread
      rw [construct, unpack, Equiv.apply_symm_apply]
      exact hread
  | nil =>
      cases hpack
      exact Reads.pure ()
  | cons t ts iht ihts =>
      have hboth := Bool.and_eq_true_iff.mp hplain
      rw [packed_cons] at hpack
      obtain ⟨a, b, ha, hb, rfl⟩ := packed_pair_eq_some.mp hpack
      have htail := (ihts hboth.2 hcount.2 hb fill).map (fun xs => (v.1, xs))
      exact (iht hboth.1 hcount.1 ha fill).bind htail

/-! ## Short encodings -/

/-- The layouts whose values take no byte. -/
def blank : {k : Kind} → {α : Type} → Layout k α → Bool
  | _, _, .sequence ts => blank ts
  | _, _, .struct ts _ => blank ts
  | _, _, .nil => true
  | _, _, .cons t ts => blank t && blank ts
  | _, _, _ => false

/-- All vectors and lists in a value whose elements take no byte have a size below 2^32. -/
def Fits : {k : Kind} → {α : Type} → Layout k α → α → Prop
  | _, _, .bool, _ => True
  | _, _, .pod _, _ => True
  | _, _, .unsignedInt, _ => True
  | _, _, .signedInt, _ => True
  | _, _, .string, _ => True
  | _, _, .chars, _ => True
  | _, _, .container t, v => (blank t = true → v.length < 2 ^ 32) ∧ ∀ x ∈ v, Fits t x
  | _, _, .set _ t, v => ∀ x ∈ v.items, Fits t x
  | _, _, .map _ k t, v => ∀ x ∈ v.items, Fits k x.1 ∧ Fits t x.2
  | _, _, .optional t, v => ∀ x ∈ v, Fits t x
  | _, _, .required t, v => ∀ x ∈ v, Fits t x
  | _, _, .sequence ts, v => Fits ts v
  | _, _, .struct ts members, v => Fits ts (members v)
  | _, _, .nil, _ => True
  | _, _, .cons t ts, v => Fits t v.1 ∧ Fits ts v.2

omit [Machine] in
/-- A layout without bytes has one value. -/
theorem subsingleton_of_blank (t : Layout k α) (h : blank t = true) : Subsingleton α := by
  induction t with
  | sequence ts ih => exact ih h
  | struct ts members ih =>
      have := ih h
      exact members.subsingleton
  | nil => infer_instance
  | cons t ts iht ihts =>
      have hboth := Bool.and_eq_true_iff.mp h
      have := iht hboth.1
      have := ihts hboth.2
      infer_instance
  | _ => cases h

omit [Machine] in
theorem counted_pos (n : Nat) (b : Text) : 0 < (code n ++ b).length := by
  rw [List.length_append]
  exact Nat.add_pos_left (length_code_pos n) _

omit [Machine] in
/-- The values of the other plain layouts take at least one byte. -/
theorem packed_pos {c : Caller} (t : Layout k α) (hplain : plain c t = true)
    (hblank : blank t = false) {v : α} {bytes : Text} (h : packed c t v = some bytes) :
    0 < bytes.length := by
  induction t generalizing c bytes with
  | bool =>
      cases h
      exact Nat.one_pos
  | pod scalar =>
      rw [packed_pod] at h
      cases h
      rw [List.Vector.toList_length]
      exact scalar.size_pos
  | unsignedInt =>
      rw [packed_unsigned] at h
      cases h
      exact length_code_pos _
  | signedInt => cases hplain
  | string =>
      rw [packed_string] at h
      cases h
      exact counted_pos _ _
  | chars =>
      rw [packed_chars] at h
      cases h
      exact counted_pos _ _
  | container t ih =>
      rw [packed_container] at h
      obtain ⟨b, _, rfl⟩ := Option.map_eq_some_iff.mp h
      exact counted_pos _ _
  | set cmp t ih =>
      rw [packed_set, packed_container] at h
      obtain ⟨b, _, rfl⟩ := Option.map_eq_some_iff.mp h
      exact counted_pos _ _
  | map cmp k t ihk iht =>
      rw [packed_map] at h
      obtain ⟨b, _, rfl⟩ := Option.map_eq_some_iff.mp h
      exact counted_pos _ _
  | optional t ih =>
      cases c with
      | packHelper => cases hplain
      | pack =>
          cases v with
          | none =>
              cases h
              exact Nat.one_pos
          | some x =>
              rw [packed_some] at h
              obtain ⟨b, _, rfl⟩ := Option.map_eq_some_iff.mp h
              exact Nat.succ_pos _
  | required t ih => cases hplain
  | sequence ts ih => exact ih hplain hblank h
  | struct ts members ih => exact ih hplain hblank h
  | nil => cases hblank
  | cons t ts iht ihts =>
      have hboth := Bool.and_eq_true_iff.mp hplain
      rw [packed_cons] at h
      obtain ⟨a, b, ha, hb, rfl⟩ := packed_pair_eq_some.mp h
      rw [List.length_append]
      cases Bool.and_eq_false_iff.mp hblank with
      | inl ht => exact Nat.add_pos_left (iht hboth.1 ht ha) _
      | inr hts => exact Nat.add_pos_right _ (ihts hboth.2 hts hb)

omit [Machine] in
/-- A row with a short encoding is short, and so are the encodings of its items. -/
theorem counted_row {β : Type} {f : β → Option Text} {P : β → Prop} {xs : List β} {bytes : Text}
    (h : packedAll f xs = some bytes) (hlen : bytes.length < 2 ^ 32)
    (hfew : xs.length < 2 ^ 32 ∨ ∀ x a, f x = some a → 0 < a.length)
    (hitem : ∀ x ∈ xs, ∀ a, f x = some a → a.length < 2 ^ 32 → P x) :
    xs.length < 2 ^ 32 ∧ ∀ x ∈ xs, P x := by
  constructor
  · cases hfew with
    | inl hshort => exact hshort
    | inr hpos => exact Nat.lt_of_le_of_lt (length_le_packed hpos h) hlen
  · intro x hx
    obtain ⟨a, ha, hle⟩ := packed_item h hx
    exact hitem x hx a ha (Nat.lt_of_le_of_lt hle hlen)

omit [Machine] in
/-- A value with a short encoding has short strings and containers. -/
theorem counted_of_fits {c : Caller} (t : Layout k α) (hplain : plain c t = true) {v : α}
    (hfits : Fits t v) {bytes : Text} (h : packed c t v = some bytes)
    (hlen : bytes.length < 2 ^ 32) : Counted t v := by
  induction t generalizing c bytes with
  | bool => trivial
  | pod scalar => trivial
  | unsignedInt => trivial
  | signedInt => trivial
  | string =>
      rw [packed_string] at h
      cases h
      rw [List.length_append] at hlen
      exact Nat.lt_of_le_of_lt (Nat.le_add_left _ _) hlen
  | chars =>
      rw [packed_chars] at h
      cases h
      rw [List.length_append] at hlen
      exact Nat.lt_of_le_of_lt (Nat.le_add_left _ _) hlen
  | container t ih =>
      rw [packed_container] at h
      obtain ⟨b, hb, rfl⟩ := Option.map_eq_some_iff.mp h
      rw [List.length_append] at hlen
      refine counted_row hb (by omega) ?_ (fun x hx a ha hle => ih hplain (hfits.2 x hx) ha hle)
      cases hblank : blank t with
      | true => exact .inl (hfits.1 hblank)
      | false => exact .inr (fun x a ha => packed_pos t hplain hblank ha)
  | set cmp t ih =>
      rw [packed_set, packed_container] at h
      obtain ⟨b, hb, rfl⟩ := Option.map_eq_some_iff.mp h
      rw [List.length_append] at hlen
      refine counted_row hb (by omega) ?_ (fun x hx a ha hle => ih hplain (hfits x hx) ha hle)
      cases hblank : blank t with
      | true =>
          have := subsingleton_of_blank t hblank
          exact .inl (Nat.lt_of_le_of_lt v.length_le_one (by omega))
      | false => exact .inr (fun x a ha => packed_pos t hplain hblank ha)
  | map cmp k t ihk iht =>
      have hboth := Bool.and_eq_true_iff.mp hplain
      rw [packed_map] at h
      obtain ⟨b, hb, rfl⟩ := Option.map_eq_some_iff.mp h
      rw [List.length_append] at hlen
      refine counted_row hb (by omega) ?_ ?_
      · cases hblank : blank k with
        | true =>
            have := subsingleton_of_blank k hblank
            exact .inl (Nat.lt_of_le_of_lt v.length_le_one (by omega))
        | false =>
            right
            intro x a ha
            obtain ⟨a₁, a₂, ha₁, _, rfl⟩ := packed_pair_eq_some.mp ha
            rw [List.length_append]
            exact Nat.add_pos_left (packed_pos k hboth.1 hblank ha₁) _
      · intro x hx a ha hle
        obtain ⟨a₁, a₂, ha₁, ha₂, rfl⟩ := packed_pair_eq_some.mp ha
        rw [List.length_append] at hle
        exact ⟨ihk hboth.1 (hfits x hx).1 ha₁ (by omega), iht hboth.2 (hfits x hx).2 ha₂ (by omega)⟩
  | optional t ih =>
      intro x hx
      cases hx
      cases c with
      | packHelper => cases hplain
      | pack =>
          rw [packed_some] at h
          obtain ⟨b, hb, rfl⟩ := Option.map_eq_some_iff.mp h
          rw [List.length_cons] at hlen
          exact ih hplain (hfits x rfl) hb (by omega)
  | required t ih => cases hplain
  | sequence ts ih => exact ih hplain hfits h hlen
  | struct ts members ih => exact ih hplain hfits h hlen
  | nil => trivial
  | cons t ts iht ihts =>
      have hboth := Bool.and_eq_true_iff.mp hplain
      rw [packed_cons] at h
      obtain ⟨a, b, ha, hb, rfl⟩ := packed_pair_eq_some.mp h
      rw [List.length_append] at hlen
      exact ⟨iht hboth.1 hfits.1 ha (by omega), ihts hboth.2 hfits.2 hb (by omega)⟩

omit [Machine] in
/-- Packing a value of a plain layout looks into no unset value. -/
theorem packed_total {c : Caller} (t : Layout k α) (hplain : plain c t = true) (v : α) :
    ∃ bytes, packed c t v = some bytes := by
  induction t generalizing c with
  | container t ih =>
      obtain ⟨b, hb⟩ := packed_all_some (fun x (_ : x ∈ v) => ih hplain x)
      exact ⟨_, by rw [packed_container, hb]; rfl⟩
  | set cmp t ih =>
      obtain ⟨b, hb⟩ := packed_all_some (fun x (_ : x ∈ v.items) => ih hplain x)
      exact ⟨_, by rw [packed_set, packed_container, hb]; rfl⟩
  | map cmp k t ihk iht =>
      have hboth := Bool.and_eq_true_iff.mp hplain
      have hpair : ∀ x, ∃ a, packedPair (packed .pack k) (packed .pack t) x = some a := by
        intro x
        obtain ⟨a, ha⟩ := ihk hboth.1 x.1
        obtain ⟨b, hb⟩ := iht hboth.2 x.2
        exact ⟨a ++ b, packed_pair ha hb⟩
      obtain ⟨b, hb⟩ := packed_all_some (fun x (_ : x ∈ v.items) => hpair x)
      exact ⟨_, by rw [packed_map, hb]; rfl⟩
  | optional t ih =>
      cases c with
      | packHelper => cases hplain
      | pack =>
          cases v with
          | none => exact ⟨_, rfl⟩
          | some x =>
              obtain ⟨b, hb⟩ := ih hplain x
              exact ⟨_, by rw [packed_some, hb]; rfl⟩
  | required t ih => cases hplain
  | sequence ts ih => exact ih hplain v
  | struct ts members ih => exact ih hplain (members v)
  | cons t ts iht ihts =>
      have hboth := Bool.and_eq_true_iff.mp hplain
      obtain ⟨a, ha⟩ := iht hboth.1 v.1
      obtain ⟨b, hb⟩ := ihts hboth.2 v.2
      exact ⟨a ++ b, by rw [packed_cons]; exact packed_pair ha hb⟩
  | _ => exact ⟨_, rfl⟩

/-- Unpacking what was packed, from a stream that goes on behind it, gives the value back and
leaves the stream right behind it. -/
theorem round_trip (t : Layout .single α) (hplain : plain .pack t = true) (v : α)
    (hfits : Fits t v) :
    ∃ bytes, pack .pack t ([] : Text) v = some bytes ∧
      (bytes.length < 2 ^ 32 → ∀ (fill : Byte) (r : Text),
        unpack t (construct fill t) (.new (bytes ++ r)) =
          .ok (v, ⟨bytes ++ r, bytes.length⟩)) := by
  obtain ⟨bytes, hpack⟩ := packed_total t hplain v
  refine ⟨bytes, hpack, ?_⟩
  intro hlen fill r
  have hcount := counted_of_fits t hplain hfits hpack hlen
  rw [unpack_packed t hplain hcount hpack fill _ r (Datastream.rest_new (bytes ++ r)),
    Datastream.skip, Datastream.new, Nat.zero_add]

omit [Machine] in
/-- A struct of an `unsigned_int`, a vector of strings and a map. -/
theorem round_trip_struct :
    letI := Machine.x86
    let t : Layout .single
        (UInt32 × List Text × OrderedMap (Compare.ofNat UInt32.toNat) Bool × Unit) :=
      .struct (.cons .unsignedInt (.cons (.container .string)
        (.cons (.map (Compare.ofNat UInt32.toNat) .unsignedInt .bool) .nil))) (Equiv.refl _)
    let v := (300, [[104, 105], []], ⟨[(1, true), (7, false)], by decide⟩, ())
    let bytes : Text := [172, 2, 2, 2, 104, 105, 0, 2, 1, 1, 7, 0]
    unpack t (construct 0 t) (.new (bytes ++ [9])) = .ok (v, ⟨bytes ++ [9], 12⟩) := by
  let _ := Machine.x86
  intro t v bytes
  have hfits : Fits t v := by simp [t, v, Fits, blank]
  have hbytes : pack .pack t ([] : Text) v = some bytes := by
    simp [t, v, bytes, pack, packBool, pack_chars_text, pack_unsigned_text, code_small, code_large]
  obtain ⟨packed, hpack, hread⟩ := round_trip t rfl v hfits
  cases hbytes.symm.trans hpack
  exact hread (by decide) 0 [9]

omit [Machine] in
/-- The size of a vector of `2 ^ 32` empty fusion sequences is written as 0. -/
theorem round_trip_long_vector :
    letI := Machine.x86
    let t : Layout .single (List Unit) := .container (.sequence .nil)
    let v := List.replicate (2 ^ 32) ()
    plain .pack t = true ∧ pack .pack t ([] : Text) v = some [0] ∧
      unpack t (construct 0 t) (.new [0]) = .ok ([], ⟨[0], 1⟩) ∧ v ≠ [] := by
  let _ := Machine.x86
  intro t v
  have hblank : ∀ n, packedAll (packed .pack (.sequence .nil)) (List.replicate n ()) = some [] := by
    intro n
    induction n with
    | zero => rfl
    | succ n ih => exact packed_all_cons.mpr ⟨[], [], rfl, ih, rfl⟩
  refine ⟨rfl, ?_, rfl, ?_⟩
  · show packed .pack t v = some [0]
    rw [packed_container, hblank, List.length_replicate]
    simp [code_small]
  · intro hv
    have hlength := congrArg List.length hv
    rw [List.length_replicate] at hlength
    exact absurd hlength (by simp)

end BoostRpc.Raw
