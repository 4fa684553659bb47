import BoostRpc.ProtocolBuffer.Mismatch

/-!
# Schema evolution

An `Extension` is a message type together with one that has further fields behind its own, which
can all be left out. The unpacker throws for a field that the type does not have.
`compatible_iff` says for which values the two types read each other's messages.
-/

namespace BoostRpc.ProtocolBuffer

open Raw

/-! ## Fields in a row -/

/-- Some fields and then others. -/
def Fields.append : {ts us : List Type} → Fields ts → Fields us → Fields (ts ++ us)
  | _, _, .nil, gs => gs
  | _, _, .cons name f fs, gs => .cons name f (fs.append gs)

/-- The values of some fields and then others. -/
def Values.append : {ts us : List Type} → Values ts → Values us → Values (ts ++ us)
  | [], _, _, others => others
  | _ :: _, _, (value, values), others => (value, Values.append values others)

/-- The values of the first fields. -/
def Values.front : (ts : List Type) → {us : List Type} → Values (ts ++ us) → Values ts
  | [], _, _ => ()
  | _ :: ts, _, (value, values) => (value, Values.front ts values)

/-- The values of the other fields. -/
def Values.back : (ts : List Type) → {us : List Type} → Values (ts ++ us) → Values us
  | [], _, others => others
  | _ :: ts, _, (_, values) => Values.back ts values

theorem append_front_back {ts us : List Type} (values : Values (ts ++ us)) :
    Values.append (Values.front ts values) (Values.back ts values) = values := by
  induction ts with
  | nil => rfl
  | cons α ts ih => exact congrArg (Prod.mk values.1) (ih values.2)

/-- The fields that can be left out: optional and repeated ones. -/
def Omittable : {α : Type} → Field α → Prop
  | _, .plain _ => False
  | _, .optional _ => True
  | _, .required _ => False
  | _, .container _ => True

def FieldsOmittable : {ts : List Type} → Fields ts → Prop
  | _, .nil => True
  | _, .cons _ f fs => Omittable f ∧ FieldsOmittable fs

/-- The field is unset or empty. -/
def MemberAbsent : {α : Type} → Field α → α → Prop
  | _, .plain _, _ => False
  | _, .optional _, value => value = none
  | _, .required _, value => value = none
  | _, .container _, values => values = []

/-- All fields are unset or empty. -/
def FieldsAbsent : {ts : List Type} → Fields ts → Values ts → Prop
  | _, .nil, _ => True
  | _, .cons _ f fs, (value, values) => MemberAbsent f value ∧ FieldsAbsent fs values

section Append

variable {ts us : List Type} (fs : Fields ts) (gs : Fields us) (values : Values ts)
  (others : Values us)

theorem encode_append (io : Varints) (i : Nat) :
    encodeFields io (fs.append gs) i (Values.append values others) =
      encodeFields io fs i values ++ encodeFields io gs (i + ts.length) others := by
  induction ts generalizing i with
  | nil =>
      cases fs
      rfl
  | cons α ts ih =>
      cases fs with
      | cons name f fs =>
          obtain ⟨value, values⟩ := values
          show encodeMember io f (UInt32.ofNat i) value ++
            encodeFields io (fs.append gs) (i + 1) (Values.append values others) = _
          rw [ih fs values (i + 1), encodeFields, List.append_assoc, List.length_cons,
            Nat.add_assoc i 1, Nat.add_comm 1]

theorem fields_set_append : FieldsSet (fs.append gs) (Values.append values others) ↔
    FieldsSet fs values ∧ FieldsSet gs others := by
  induction ts with
  | nil =>
      cases fs
      exact (Iff.of_eq (true_and _)).symm
  | cons α ts ih =>
      cases fs with
      | cons name f fs =>
          obtain ⟨value, values⟩ := values
          show MemberSet f value ∧ FieldsSet (fs.append gs) (Values.append values others) ↔ _
          rw [ih fs values, ← and_assoc]
          rfl

theorem fields_readable_append : FieldsReadable (fs.append gs) (Values.append values others) ↔
    FieldsReadable fs values ∧ FieldsReadable gs others := by
  induction ts with
  | nil =>
      cases fs
      exact (Iff.of_eq (true_and _)).symm
  | cons α ts ih =>
      cases fs with
      | cons name f fs =>
          obtain ⟨value, values⟩ := values
          show MemberReadable f value ∧
            FieldsReadable (fs.append gs) (Values.append values others) ↔ _
          rw [ih fs values, ← and_assoc]
          rfl

end Append

/-! ## Fields that are left out -/

section Absent

variable {ts : List Type} (fs : Fields ts)

/-- A default-constructed message leaves them out. -/
theorem absent_construct (h : FieldsOmittable fs) (fill : Byte) :
    FieldsAbsent fs (constructFields fill fs) := by
  induction ts with
  | nil =>
      cases fs
      trivial
  | cons α ts ih =>
      cases fs with
      | cons name f fs =>
          refine ⟨?_, ih fs h.2⟩
          cases f with
          | plain t => exact absurd h.1 id
          | optional t => rfl
          | required t => exact absurd h.1 id
          | container t => rfl

/-- There is one way to leave them out. -/
theorem absent_unique {values others : Values ts} (h : FieldsAbsent fs values)
    (hothers : FieldsAbsent fs others) : values = others := by
  induction ts with
  | nil => rfl
  | cons α ts ih =>
      cases fs with
      | cons name f fs =>
          obtain ⟨value, values⟩ := values
          obtain ⟨other, others⟩ := others
          have hvalue : value = other := by
            cases f with
            | plain t => exact absurd h.1 id
            | optional t => exact h.1.trans hothers.1.symm
            | required t => exact h.1.trans hothers.1.symm
            | container t => exact h.1.trans hothers.1.symm
          rw [hvalue, ih fs h.2 hothers.2]

/-- A field that is left out has no entries. -/
theorem encode_member_absent (io : Varints) {α : Type} {f : Field α} {value : α}
    (h : MemberAbsent f value) (key : UInt32) : encodeMember io f key value = [] := by
  cases f with
  | plain t => exact absurd h id
  | optional t =>
      obtain rfl : value = none := h
      rfl
  | required t =>
      obtain rfl : value = none := h
      rfl
  | container t =>
      obtain rfl : value = [] := h
      rfl

/-- Any other field begins with a tag. -/
theorem encode_member_present (io : Varints) {α : Type} {f : Field α} {value : α}
    (h : ¬ MemberAbsent f value) (key : UInt32) :
    ∃ type r, encodeMember io f key value = io.unsigned (tag key type) ++ r := by
  cases f with
  | plain t => exact ⟨wireType t, payload io t value, rfl⟩
  | optional t =>
      cases value with
      | none => exact absurd rfl h
      | some value => exact ⟨wireType t, payload io t value, rfl⟩
  | required t =>
      cases value with
      | none => exact absurd rfl h
      | some value => exact ⟨wireType t, payload io t value, rfl⟩
  | container t =>
      cases value with
      | nil => exact absurd rfl h
      | cons value values =>
          refine ⟨wireType t, payload io t value ++ encodeMember io (.container t) key values, ?_⟩
          simp only [encodeMember, List.flatMap_cons, entry, List.append_assoc]

/-- Fields that are left out have no entries, and nothing in them is missing. -/
theorem encode_absent (io : Varints) {values : Values ts} (h : FieldsAbsent fs values)
    (homittable : FieldsOmittable fs) (i : Nat) :
    encodeFields io fs i values = [] ∧ FieldsSet fs values ∧ FieldsReadable fs values := by
  induction ts generalizing i with
  | nil =>
      cases fs
      exact ⟨rfl, trivial, trivial⟩
  | cons α ts ih =>
      cases fs with
      | cons name f fs =>
          obtain ⟨value, values⟩ := values
          obtain ⟨hencode, hset, hread⟩ := ih fs h.2 homittable.2 (i + 1)
          have hvalue : MemberSet f value ∧ MemberReadable f value := by
            cases f with
            | plain t => exact absurd homittable.1 id
            | required t => exact absurd homittable.1 id
            | optional t =>
                obtain rfl : value = none := h.1
                exact ⟨trivial, trivial⟩
            | container t =>
                obtain rfl : value = [] := h.1
                exact ⟨List.forall_mem_nil _, Or.inr rfl, List.forall_mem_nil _⟩
          refine ⟨?_, ⟨hvalue.1, hset⟩, hvalue.2, hread⟩
          rw [encodeFields, encode_member_absent io h.1, hencode]
          rfl

/-- Where one of them is there, their entries begin with a tag of its number. -/
theorem encode_present (io : Varints) {values : Values ts} (h : ¬ FieldsAbsent fs values)
    (i : Nat) :
    ∃ j type r, i ≤ j ∧ j < i + ts.length ∧
      encodeFields io fs i values = io.unsigned (tag (UInt32.ofNat j) type) ++ r := by
  induction ts generalizing i with
  | nil =>
      cases fs
      exact absurd trivial h
  | cons α ts ih =>
      cases fs with
      | cons name f fs =>
          obtain ⟨value, values⟩ := values
          rw [List.length_cons, encodeFields]
          by_cases hvalue : MemberAbsent f value
          · obtain ⟨j, type, r, hij, hj, hencode⟩ := ih fs (fun hrest => h ⟨hvalue, hrest⟩) (i + 1)
            refine ⟨j, type, r, by omega, by omega, ?_⟩
            rw [encode_member_absent io hvalue, List.nil_append, hencode]
          · obtain ⟨type, r, hencode⟩ := encode_member_present io hvalue (UInt32.ofNat i)
            refine ⟨i, type, r ++ encodeFields io fs (i + 1) values, by omega, by omega, ?_⟩
            rw [hencode, List.append_assoc]

end Absent

/-! ## Unknown fields -/

/-- The reflector finds none of the fields under a key behind theirs. -/
theorem unpack_fields_unknown (io : Varints) {ts : List Type} (fs : Fields ts) {i j : Nat}
    (hj : i + ts.length ≤ j) (hkey : j < 2 ^ 29) (type : UInt32) (values : Values ts)
    (s : Datastream) :
    unpackFields io fs i (UInt32.ofNat j) type values s = .error (.threw .fieldNotFound) := by
  induction ts generalizing i with
  | nil =>
      cases fs
      rfl
  | cons α ts ih =>
      cases fs with
      | cons name f fs =>
          rw [List.length_cons] at hj
          have hne := key_ne hkey (show i < 2 ^ 29 by omega) (show j ≠ i by omega)
          rw [unpackFields, if_neg hne]
          exact bind_of_error (ih fs (by omega) values.2)

/-- An exception in the loop leaves `unpack`. -/
theorem unpack_of_error {io : Varints} {S : Type} {m : Message S} {bytes : Text} {v : S}
    {e : Failure} (hsize : bytes.length < 2 ^ 32)
    (h : unpackMessage io m v (.new bytes) = .error e) : unpack io m bytes v = .error e := by
  cases bytes with
  | nil =>
      -- the loop over an empty buffer comes back
      cases m with
      | reflect few fields members =>
          rw [unpackMessage, bind_of_ok (show turns (.new []) = .ok (1 + 1, .new []) from rfl),
            bind_of_ok (loop_end (inside_new hsize) rfl 1 _)] at h
          cases h
  | cons b bytes => rw [unpack, if_neg (by simp), to_nat_size hsize, List.take_length, h]

/-- Behind the entries of a message, the tag of a field that it does not have ends the loop. -/
theorem message_unknown (io : Varints) {S : Type} {ts : List Type} {few : ts.length ≤ 2 ^ 29}
    {fields : Fields ts} {members : S ≃ Values ts} {values : Values ts}
    (hset : FieldsSet fields values) (hread : FieldsReadable fields values) {j : Nat}
    (hj : ts.length ≤ j) (hkey : j < 2 ^ 29) {type : WireType} {bytes r : Text}
    (hbytes : bytes = encodeFields io fields 0 values ++
      (io.unsigned (tag (UInt32.ofNat j) type) ++ r))
    (hsize : bytes.length < 2 ^ 32) (fill : Byte) :
    unpackMessage io (.reflect few fields members)
      (constructMessage fill (.reflect few fields members)) (.new bytes) =
        .error (.threw .fieldNotFound) := by
  have hlength := congrArg List.length hbytes
  rw [List.length_append] at hlength
  have hturns := turns_fields io fields values hset hread 0 (by omega) (by omega) fill
    (fun field type values => unpackFields io fields 0 field type values)
    (fun values => values) (visits_self io fields)
  have hinside := inside_new hsize
  obtain ⟨k, hk, hloop⟩ := hturns (.new bytes) _ hinside hbytes
  have hfuel : bytes.length + 2 = bytes.length + 1 - k + 1 + k := by omega
  refine message_of_error ?_
  rw [hfuel, hloop, loop_tag (hinside.skip hbytes) (Datastream.rest_skip_append hbytes)]
  refine bind_of_error ?_
  rw [tag_key (by rw [to_nat_key hkey]; exact hkey)]
  exact unpack_fields_unknown io fields (by omega) hkey _ _ _

/-! ## Extensions -/

/-- A message type, and one that has further fields behind its own, all of which can be left out. -/
structure Extension (S T : Type) where
  ts : List Type
  us : List Type
  fields : Fields ts
  added : Fields us
  few : (ts ++ us).length ≤ 2 ^ 29
  omittable : FieldsOmittable added
  members : S ≃ Values ts
  extendedMembers : T ≃ Values (ts ++ us)

namespace Extension

variable {S T : Type} (x : Extension S T)

theorem few_base : x.ts.length ≤ 2 ^ 29 := by
  have hfew := x.few
  rw [List.length_append] at hfew
  omega

/-- The type with its own fields. -/
def base : Message S := .reflect x.few_base x.fields x.members

/-- The type with the further fields. -/
def extended : Message T := .reflect x.few (x.fields.append x.added) x.extendedMembers

/-- The part of a value that the own fields hold. -/
def part (v : T) : S := x.members.symm (Values.front x.ts (x.extendedMembers v))

/-- The values of the further fields. -/
def further (v : T) : Values x.us := Values.back x.ts (x.extendedMembers v)

/-- A value of the own fields where the further ones are unset or empty. -/
def widen (r : S) : T :=
  x.extendedMembers.symm (Values.append (x.members r) (constructFields 0 x.added))

theorem members_eq (v : T) :
    x.extendedMembers v = Values.append (x.members (x.part v)) (x.further v) := by
  rw [part, further, Equiv.apply_symm_apply, append_front_back]

/-- The encoding is that of the part and then that of the further fields. -/
theorem encode_extended (io : Varints) (v : T) :
    encodeMessage io x.extended v =
      encodeMessage io x.base (x.part v) ++ encodeFields io x.added x.ts.length (x.further v) := by
  have happend := encode_append x.fields x.added (x.members (x.part v)) (x.further v) io 0
  rw [Nat.zero_add] at happend
  rw [extended, base, encodeMessage, encodeMessage, x.members_eq v, happend]

theorem set_extended (v : T) : MessageSet x.extended v ↔
    MessageSet x.base (x.part v) ∧ FieldsSet x.added (x.further v) := by
  rw [extended, base, MessageSet, MessageSet, x.members_eq v]
  exact fields_set_append x.fields x.added _ _

theorem readable_extended (v : T) : MessageReadable x.extended v ↔
    MessageReadable x.base (x.part v) ∧ FieldsReadable x.added (x.further v) := by
  rw [extended, base, MessageReadable, MessageReadable, x.members_eq v]
  exact fields_readable_append x.fields x.added _ _

end Extension

/-- The two types read each other's messages of a value: the one reads its part, and the other one
reads this part back with the further fields unset or empty. -/
structure Compatible (io : Varints) {S T : Type} (x : Extension S T) (v : T) : Prop where
  forward : ∀ (msg : Text) (fill : Byte), ∃ bytes, pack io x.extended msg v = (bytes, none) ∧
    unpack io x.base bytes (constructMessage fill x.base) = .ok (x.part v, true)
  backward : ∀ (msg : Text) (fill : Byte), ∃ bytes, pack io x.base msg (x.part v) = (bytes, none) ∧
    unpack io x.extended bytes (constructMessage fill x.extended) = .ok (x.widen (x.part v), true)

section Compatible

variable (io : Varints) {S T : Type} (x : Extension S T) (v : T)

/-- Where the part has an element in a container of scalars, it is not read. -/
theorem part_unreadable (hset : MessageSet x.base (x.part v))
    (hread : ¬ MessageReadable x.base (x.part v))
    (hsize : (encodeMessage io x.extended v).length < 2 ^ 32) (fill : Byte) :
    ∃ name, unpack io x.base (encodeMessage io x.extended v) (constructMessage fill x.base) =
      .error (.threw (.keyTypeMismatch name)) := by
  have hlength := congrArg List.length (x.encode_extended io v)
  rw [List.length_append] at hlength
  have hbreaks := fields_break io x.fields (x.members (x.part v)) hset hread 0
    (by show (encodeMessage io x.base (x.part v)).length < 2 ^ 32; omega)
    (by rw [Nat.zero_add]; exact x.few_base) fill
    (fun field type values => unpackFields io x.fields 0 field type values)
    (fun values => values) (visits_self io x.fields)
  have hmessage : ∃ name, unpackMessage io x.base (constructMessage fill x.base)
      (.new (encodeMessage io x.extended v)) = .error (.threw (.keyTypeMismatch name)) := by
    refine message_of_breaks hsize ?_
    rw [x.encode_extended io v]
    exact hbreaks.append _
  obtain ⟨name, hname⟩ := hmessage
  exact ⟨name, unpack_of_error hsize hname⟩

/-- Where a further field is there, it is not found. -/
theorem further_unknown (hset : MessageSet x.base (x.part v))
    (hread : MessageReadable x.base (x.part v)) (habsent : ¬ FieldsAbsent x.added (x.further v))
    (hsize : (encodeMessage io x.extended v).length < 2 ^ 32) (fill : Byte) :
    unpack io x.base (encodeMessage io x.extended v) (constructMessage fill x.base) =
      .error (.threw .fieldNotFound) := by
  obtain ⟨j, type, r, hij, hj, hencode⟩ := encode_present x.added io habsent x.ts.length
  have hfew := x.few
  rw [List.length_append] at hfew
  have hbytes := x.encode_extended io v
  rw [hencode] at hbytes
  exact unpack_of_error hsize (message_unknown io hset hread hij (by omega) hbytes hsize fill)

/-- A value whose encoding is shorter than 2^32 bytes passes between the two types if and only if
its further fields are unset or empty and its part has no elements in containers of scalars. -/
theorem compatible_iff (hset : MessageSet x.extended v)
    (hsize : (encodeMessage io x.extended v).length < 2 ^ 32) :
    Compatible io x v ↔
      FieldsAbsent x.added (x.further v) ∧ MessageReadable x.base (x.part v) := by
  have hpart := ((x.set_extended v).mp hset).1
  constructor
  · intro h
    obtain ⟨bytes, hpack, hunpack⟩ := h.forward [] 0
    obtain rfl : encodeMessage io x.extended v = bytes :=
      congrArg Prod.fst ((pack_encodes io x.extended [] hset hsize).symm.trans hpack)
    have hread : MessageReadable x.base (x.part v) := by
      by_contra hread
      obtain ⟨name, hname⟩ := part_unreadable io x v hpart hread hsize 0
      cases hunpack.symm.trans hname
    refine ⟨?_, hread⟩
    by_contra habsent
    cases hunpack.symm.trans (further_unknown io x v hpart hread habsent hsize 0)
  · intro ⟨habsent, hread⟩
    obtain ⟨hnone, hset', hread'⟩ := encode_absent x.added io habsent x.omittable x.ts.length
    have hencode := x.encode_extended io v
    rw [hnone, List.append_nil] at hencode
    have hsize' := hsize
    rw [hencode] at hsize'
    have hwiden : x.widen (x.part v) = v := by
      have heq := absent_unique x.added habsent (absent_construct x.added x.omittable 0)
      rw [Extension.widen, ← heq, ← x.members_eq v, Equiv.symm_apply_apply]
    refine ⟨fun msg fill => ⟨_, pack_encodes io x.extended msg hset hsize, ?_⟩,
      fun msg fill => ⟨_, pack_encodes io x.base msg hpart hsize', ?_⟩⟩
    · rw [hencode]
      exact unpack_encoded io x.base (x.part v) hpart hread hsize' fill
    · rw [← hencode, hwiden]
      exact unpack_encoded io x.extended v hset ((x.readable_extended v).mpr ⟨hread, hread'⟩)
        hsize fill

end Compatible

/-- A person with a name, to which an email and phones are added. -/
def contact : Extension (Option Text × Unit) (Option Text × Option Text × List (Byte × Unit) × Unit)
    where
  ts := [Option Text]
  us := [Option Text, List (Byte × Unit)]
  fields := .cons (str "name") (.required .string) .nil
  added := .cons (str "email") (.optional .string)
    (.cons (str "phone") (.container (.message phone)) .nil)
  few := by decide
  omittable := ⟨trivial, trivial, trivial⟩
  members := Equiv.refl _
  extendedMembers := Equiv.refl _

/-- Without an email and phones a person passes. -/
theorem compatible_contact :
    letI := Machine.x86
    Compatible .base128 contact (some (str "A"), none, [], ()) :=
  letI := Machine.x86
  (compatible_iff .base128 contact (some (str "A"), none, [], ())
    ⟨trivial, trivial, List.forall_mem_nil _, trivial⟩
    (by simp [contact, Extension.extended, Fields.append, encodeMessage, encodeFields, encodeMember,
      entry, payload, delimited, wireType, Varints.base128, tag, WireType.value, str,
      Base128.code_small])).mpr ⟨⟨rfl, rfl, trivial⟩, trivial, trivial⟩

/-- With an email they do not. -/
theorem email_not_found :
    ¬ ∀ (io : Varints) (S T : Type) (x : Extension S T) (v : T), MessageSet x.extended v →
      MessageReadable x.extended v → (encodeMessage io x.extended v).length < 2 ^ 32 →
      Compatible io x v := by
  intro h
  let := Machine.x86
  let v : Option Text × Option Text × List (Byte × Unit) × Unit :=
    (some (str "A"), some (str "a"), [], ())
  have hsize : (encodeMessage .base128 contact.extended v).length < 2 ^ 32 := by
    simp [v, contact, Extension.extended, Fields.append, encodeMessage, encodeFields, encodeMember,
      entry, payload, delimited, wireType, Varints.base128, tag, WireType.value, str,
      Base128.code_small]
  have hset : MessageSet contact.extended v := ⟨trivial, trivial, List.forall_mem_nil _, trivial⟩
  obtain ⟨bytes, hpack, hunpack⟩ := (h .base128 _ _ contact v hset
    ⟨trivial, trivial, ⟨Or.inl trivial, List.forall_mem_nil _⟩, trivial⟩ hsize).forward [] 0
  obtain rfl : encodeMessage .base128 contact.extended v = bytes :=
    congrArg Prod.fst ((pack_encodes .base128 contact.extended [] hset hsize).symm.trans hpack)
  have hunknown := further_unknown .base128 contact v ⟨trivial, trivial⟩ ⟨trivial, trivial⟩
    (fun habsent => absurd habsent.1 (Option.some_ne_none _)) hsize 0
  cases hunpack.symm.trans hunknown

end BoostRpc.ProtocolBuffer
