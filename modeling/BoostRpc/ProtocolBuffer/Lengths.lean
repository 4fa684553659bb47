import BoostRpc.ProtocolBuffer.Packing
import BoostRpc.ProtocolBuffer.RoundTrip

/-!
# Lengths and refusals

`packsize` runs the packer on a stream that counts, once for the buffer and once more in front of
every nested message. `lengths_right` says that all these sizes are those of the bytes behind them.
A required field that is not set ends the first of these passes, before the buffer is touched:
`refusal`.
-/

namespace BoostRpc.ProtocolBuffer

open Raw

/-! ## Nested messages -/

/-- A message with its type. -/
structure Nested : Type 1 where
  {S : Type}
  body : Body S
  value : S

mutual
/-- The messages in a value, at any depth. -/
def Packable.nested : {α : Type} → Packable α → α → List Nested
  | _, .fundamental _ _, _ => []
  | _, .unsignedInt, _ => []
  | _, .signedInt, _ => []
  | _, .string, _ => []
  | _, .optional _, none => []
  | _, .optional t, some value => t.nested value
  | _, .required _, none => []
  | _, .required t, some value => t.nested value
  | _, .message b, value => ⟨b, value⟩ :: b.nested value

def PackableField.nested : {α : Type} → PackableField α → α → List Nested
  | _, .plain t, value => t.nested value
  | _, .container t, values => values.flatMap fun value => t.nested value

def PackableFields.nested : {ts : List Type} → PackableFields ts → Values ts → List Nested
  | _, .nil, _ => []
  | _, .cons f fs, (value, values) => f.nested value ++ fs.nested values

def Elements.nested : {ts : List Type} → Elements ts → Values ts → List Nested
  | _, .nil, _ => []
  | _, .cons t row, (value, values) => t.nested value ++ row.nested values

/-- The messages nested in a message. -/
def Body.nested : {S : Type} → Body S → S → List Nested
  | _, .reflect fields members, value => fields.nested (members value)
  | _, .sequence row elements, value => row.nested (elements value)
end

/-- The required fields of the nested messages are set, and each stands in `bytes` behind its
length. -/
def Delimits (io : Varints) (bytes : Text) (n : Nested) : Prop :=
  ¬ n.body.Missing n.value ∧ delimited io (n.body.encode io n.value) <:+: bytes

theorem Delimits.trans {io : Varints} {a b : Text} {n : Nested} (h : Delimits io a n)
    (hab : a <:+: b) : Delimits io b n := ⟨h.1, h.2.trans hab⟩

mutual
theorem packable_delimits (io : Varints) {α : Type} (t : Packable α) (key : UInt32) {value : α}
    (hset : ¬ t.Missing value) :
    ∀ n ∈ t.nested value, Delimits io (t.encode io key value) n := by
  match t, value with
  | .fundamental size toBytes, value => exact fun n hn => absurd hn List.not_mem_nil
  | .unsignedInt, value => exact fun n hn => absurd hn List.not_mem_nil
  | .signedInt, value => exact fun n hn => absurd hn List.not_mem_nil
  | .string, value => exact fun n hn => absurd hn List.not_mem_nil
  | .optional t, none => exact fun n hn => absurd hn List.not_mem_nil
  | .optional t, some value => exact packable_delimits io t key hset
  | .required t, none => exact fun n hn => absurd hn List.not_mem_nil
  | .required t, some value => exact packable_delimits io t key hset
  | .message b, value =>
      intro n hn
      have hpayload :
          delimited io (b.encode io value) <:+: Packable.encode io (.message b) key value :=
        (List.suffix_append _ _).isInfix
      rcases List.mem_cons.mp hn with rfl | hn
      · exact ⟨hset, hpayload⟩
      · have hbody : b.encode io value <:+: delimited io (b.encode io value) :=
          (List.suffix_append _ _).isInfix
        exact (body_delimits io b hset n hn).trans (hbody.trans hpayload)

theorem packable_field_delimits (io : Varints) {α : Type} (f : PackableField α) (key : UInt32)
    {value : α} (hset : ¬ f.Missing value) :
    ∀ n ∈ f.nested value, Delimits io (f.encode io key value) n := by
  match f, value with
  | .plain t, value => exact packable_delimits io t key hset
  | .container t, values =>
      intro n hn
      obtain ⟨value, hvalue, hn⟩ := List.mem_flatMap.mp hn
      have hitem := packable_delimits io t key (fun h => hset ⟨value, hvalue, h⟩) n hn
      refine hitem.trans ?_
      rw [PackableField.encode, List.flatMap_def]
      exact List.infix_of_mem_flatten (List.mem_map_of_mem hvalue)

theorem packable_fields_delimits (io : Varints) {ts : List Type} (fs : PackableFields ts) (i : Nat)
    {values : Values ts} (hset : ¬ fs.Missing values) :
    ∀ n ∈ fs.nested values, Delimits io (fs.encode io i values) n := by
  match fs, values with
  | .nil, _ => exact fun n hn => absurd hn List.not_mem_nil
  | .cons f fs, (value, values) =>
      intro n hn
      obtain ⟨hvalue, hvalues⟩ := not_or.mp hset
      rcases List.mem_append.mp hn with hn | hn
      · exact (packable_field_delimits io f _ hvalue n hn).trans (List.prefix_append _ _).isInfix
      · exact (packable_fields_delimits io fs (i + 1) hvalues n hn).trans
          (List.suffix_append _ _).isInfix

theorem elements_delimits (io : Varints) {ts : List Type} (row : Elements ts) (id : UInt32)
    {values : Values ts} (hset : ¬ row.Missing values) :
    ∀ n ∈ row.nested values, Delimits io (row.encode io id values) n := by
  match row, values with
  | .nil, _ => exact fun n hn => absurd hn List.not_mem_nil
  | .cons t row, (value, values) =>
      intro n hn
      obtain ⟨hvalue, hvalues⟩ := not_or.mp hset
      rcases List.mem_append.mp hn with hn | hn
      · exact (packable_delimits io t id hvalue n hn).trans (List.prefix_append _ _).isInfix
      · exact (elements_delimits io row (id + 1) hvalues n hn).trans
          (List.suffix_append _ _).isInfix

/-- Every nested message stands in the encoding behind its length. -/
theorem body_delimits (io : Varints) {S : Type} (b : Body S) {value : S}
    (hset : ¬ b.Missing value) : ∀ n ∈ b.nested value, Delimits io (b.encode io value) n := by
  match b, value with
  | .reflect fields members, value => exact packable_fields_delimits io fields 0 hset
  | .sequence row elements, value => exact elements_delimits io row 0 hset
end

/-! ## Lengths -/

/-- Bytes in a row are no more than the whole. -/
theorem size_of_infix {a b : Text} (h : a <:+: b) (hb : b.length < 2 ^ 32) :
    (UInt32.ofNat a.length).toNat = a.length :=
  UInt32.toNat_ofNat_of_lt' (Nat.lt_of_le_of_lt h.length_le hb)

/-- A message whose required fields are set has an encoding, which a stream without bounds receives.
Where it is shorter than 2^32 bytes, `packsize` is its length, `pack` makes any buffer the encoding,
and so it is for every nested message: it stands in the encoding behind its own `packsize`. -/
theorem lengths_right (io : Varints) {S : Type} (b : Body S) (v : S) (hset : ¬ b.Missing v) :
    ∃ bytes, b.pack io ([] : Text) v = .ok bytes ∧
      (bytes.length < 2 ^ 32 →
        (∃ size, b.packsize io v = .ok size ∧ size.toNat = bytes.length) ∧
        (∀ msg, b.packVector io msg v = (bytes, none)) ∧
        ∀ n ∈ b.nested v, ∃ inner size, n.body.pack io ([] : Text) n.value = .ok inner ∧
          n.body.packsize io n.value = .ok size ∧ size.toNat = inner.length ∧
          io.unsigned size ++ inner <:+: bytes) := by
  refine ⟨_, pack_body_text io b hset, fun hlen => ⟨⟨_, packsize_body io b hset, ?_⟩, ?_, ?_⟩⟩
  · exact UInt32.toNat_ofNat_of_lt' hlen
  · exact fun msg => pack_vector_body io b msg hset hlen
  · intro n hn
    obtain ⟨hnested, hinfix⟩ := body_delimits io b hset n hn
    have hinner : n.body.encode io n.value <:+: delimited io (n.body.encode io n.value) :=
      (List.suffix_append _ _).isInfix
    exact ⟨_, _, pack_body_text io n.body hnested, packsize_body io n.body hnested,
      size_of_infix (hinner.trans hinfix) hlen, hinfix⟩

/-- The length of each phone of the message is right. -/
theorem lengths_right_person :
    letI := Machine.x86
    person.body.packsize .base128 somebody = .ok 11 ∧
      person.body.packVector .base128 [9] somebody =
        ([2, 1, 65, 18, 2, 3, 1, 18, 2, 3, 2], none) := by
  let _ := Machine.x86
  have hset := (message_set_iff person somebody).mp
    ⟨trivial, trivial, fun _ _ => ⟨trivial, trivial⟩, trivial⟩
  have hbytes : person.body.encode .base128 somebody = [2, 1, 65, 18, 2, 3, 1, 18, 2, 3, 2] := by
    simp [person, phone, somebody, Message.body, Fields.packable, Field.packable,
      Element.packable, Body.encode, PackableFields.encode, PackableField.encode, Packable.encode,
      entry, delimited, chars, Varints.base128, tag, WireType.value, str, Base128.code_small, char,
      getWireType]
    rfl
  have htext := (pack_body_text .base128 person.body hset).trans (congrArg Except.ok hbytes)
  obtain ⟨bytes, hpack, hlengths⟩ := lengths_right .base128 person.body somebody hset
  cases htext.symm.trans hpack
  obtain ⟨⟨size, hsize, hlength⟩, hvector, -⟩ := hlengths (by decide)
  refine ⟨?_, hvector [9]⟩
  rw [hsize, show size = 11 from UInt32.toNat_inj.mp hlength]

/-! ## Refusals -/

section Passes

variable {io : Varints} {S : Type} {b : Body S} {v : S} {size : UInt32} (msg : Text)
  (hsize : b.packsize io v = .ok size)

include hsize

/-- Neither pass throws, and the second one leaves the buffer. -/
theorem pack_vector_of_fault {fault : Fault}
    (h : b.pack io (.ok (.new (resize size.toNat 0 msg)) : BufferStream) v = .ok (.error fault)) :
    b.packVector io msg v = (resize size.toNat 0 msg, some (.fault fault)) := by
  simp only [Body.packVector, hsize, h]

/-- Neither pass throws, and the second one stays in the buffer. -/
theorem pack_vector_of_stream {ds : Datastream}
    (h : b.pack io (.ok (.new (resize size.toNat 0 msg)) : BufferStream) v = .ok (.ok ds)) :
    b.packVector io msg v = (ds.data, none) := by
  simp only [Body.packVector, hsize, h]

end Passes

/-- `pack` throws if and only if a required field that can be reached from the message is not set,
and then leaves the buffer as it was. Otherwise it returns where the encoding is shorter than 2^32
bytes. -/
theorem refusal (io : Varints) {S : Type} (b : Body S) (v : S) (msg : Text) :
    ((b.packVector io msg v).2 = some (.threw .requiredFieldNotSet) ↔ b.Missing v) ∧
      (b.Missing v → (b.packVector io msg v).1 = msg) ∧
      ∀ bytes, b.pack io ([] : Text) v = .ok bytes → bytes.length < 2 ^ 32 →
        b.packVector io msg v = (bytes, none) := by
  by_cases h : b.Missing v
  · have hrefused := pack_vector_refused io b msg h
    refine ⟨⟨fun _ => h, fun _ => by rw [hrefused]⟩, fun _ => by rw [hrefused], ?_⟩
    intro bytes hpack
    cases hpack.symm.trans (pack_body_refused io b h _)
  · refine ⟨⟨fun hthrew => ?_, fun hmissing => absurd hmissing h⟩,
      fun hmissing => absurd hmissing h,
      ?_⟩
    · -- no pass throws
      have hsize := packsize_body io b h
      obtain ⟨ds, hds⟩ := (pack_body_writes io b (any_follows _) h).total
        (Except.ok (Datastream.new (resize (UInt32.ofNat (b.encode io v).length).toNat 0 msg)) :
          BufferStream)
      cases ds with
      | error fault =>
          rw [pack_vector_of_fault msg hsize hds] at hthrew
          cases hthrew
      | ok ds =>
          rw [pack_vector_of_stream msg hsize hds] at hthrew
          cases hthrew
    · intro bytes hpack hlen
      cases hpack.symm.trans (pack_body_text io b h)
      exact pack_vector_body io b msg h hlen

/-- The messages with a container of strings. -/
def notes : Body (List Text × Unit) :=
  .reflect (.cons (.container .string) .nil) (Equiv.refl _)

/-- Once `memcpy` has left the buffer, nothing that is written brings it back. -/
theorem fault_follows (fault : Fault) (limit : Nat) :
    Follows limit (fun (s : BufferStream) _ => s = .error fault) :=
  ⟨fun _ _ _ hs _ => by rw [hs]; rfl, fun _ _ _ hs _ => by rw [hs]; rfl⟩

/-- A size of 2^31 or more passes the test of `write` where less is left. -/
theorem write_past {buffer bytes d : Text} {s : BufferStream} (hs : Holds buffer s bytes)
    (hlarge : 2 ^ 31 ≤ d.length) (hsmall : d.length < 2 ^ 32)
    (hroom : buffer.length < bytes.length + d.length) :
    OutStream.write s d = (.error .outOfBounds : BufferStream) := by
  obtain ⟨hle, rfl⟩ := hs
  have hsize := UInt32.toNat_ofNat_of_lt' hsmall
  have hleft : Datastream.left ⟨bytes ++ buffer.drop bytes.length, bytes.length⟩ =
      (buffer.length : Int) - bytes.length := by
    simp only [Datastream.left, List.length_append, List.length_drop]
    omega
  have htest : (UInt32.ofNat d.length).toInt32.toInt ≤
      Datastream.left ⟨bytes ++ buffer.drop bytes.length, bytes.length⟩ := by
    rw [hleft, to_int32, hsize, if_neg (by omega)]
    omega
  have houtside := write_outside ⟨d.take (UInt32.ofNat d.length).toNat, length_take_of_nat d⟩ htest
    (by rw [hleft, hsize]; omega)
  show (Datastream.write _ _ _ >>= fun p => Except.ok p.2) = _
  rw [houtside]
  rfl

section LongNotes

variable [Machine] {text : Text} (h : text.length = 2 ^ 31)

theorem length_note_tag :
    (Varints.base128.unsigned (tag 0 .lengthDelimited)).length = 1 := by
  simp [Varints.base128, tag, WireType.value, Base128.code_small]

include h

theorem length_note_size : (Varints.base128.unsigned (UInt32.ofNat text.length)).length = 5 := by
  simp [Varints.base128, h, Base128.code_small, Base128.code_large]

omit [Machine] in
theorem length_note : (text.take (UInt32.ofNat text.length).toNat).length = 2 ^ 31 := by
  have hsize : (UInt32.ofNat text.length).toNat = 2 ^ 31 := by rw [h]; rfl
  rw [List.length_take, hsize, h, Nat.min_self]

/-- A string of 2^31 bytes is copied to a buffer of twelve bytes. -/
theorem note_past {buffer : Text} (hbuffer : buffer.length = 12) :
    Packable.string.packField .base128 (.ok (.new buffer) : BufferStream) 0 text =
      .ok (.error .outOfBounds) := by
  have hfollows := buffer_follows (show buffer.length < 2 ^ 32 by omega)
  have hbytes : (Varints.base128.unsigned (tag 0 .lengthDelimited) ++
      Varints.base128.unsigned (UInt32.ofNat text.length)).length = 6 := by
    rw [List.length_append, length_note_tag, length_note_size h]
  -- the tag and the size find room
  obtain ⟨s, hs, hholds⟩ := ((writes_unsigned .base128 hfollows (tag 0 .lengthDelimited)).bind
    (writes_unsigned .base128 hfollows (UInt32.ofNat text.length))) (.ok (.new buffer)) []
    ⟨Nat.zero_le _, rfl⟩ (by rw [hbytes, List.length_nil]; omega)
  have hnote := length_note h
  rw [List.nil_append] at hholds
  have hpast := write_past hholds (Nat.le_of_eq hnote.symm) (by rw [hnote]; decide)
    (by rw [hbuffer, hbytes, hnote]; decide)
  cases hs
  exact congrArg Except.ok hpast

theorem length_notes : (notes.encode .base128 ([text, text], ())).length = 2 * (6 + 2 ^ 31) := by
  have hentry : (entry .base128 0 .lengthDelimited (chars .base128 text)).length = 6 + 2 ^ 31 := by
    rw [entry, chars, List.length_append, List.length_append, length_note_tag, length_note_size h,
      length_note h]
    rfl
  have hencode : notes.encode .base128 ([text, text], ()) =
      entry .base128 0 .lengthDelimited (chars .base128 text) ++
        (entry .base128 0 .lengthDelimited (chars .base128 text) ++ []) ++ [] := rfl
  rw [hencode, List.append_nil, List.append_nil, List.length_append, hentry, Nat.two_mul]

/-- The sizes of two strings of 2^31 bytes add up to more than a `uint32_t` holds. -/
theorem long_notes (msg : Text) :
    (notes.packVector .base128 msg ([text, text], ())).2 = some (.fault .outOfBounds) := by
  have hset : ¬ notes.Missing ([text, text], ()) := by
    simp [notes, Body.Missing, PackableFields.Missing, PackableField.Missing, Packable.Missing]
  have hsize : notes.packsize .base128 ([text, text], ()) = .ok 12 := by
    rw [packsize_body .base128 notes hset, length_notes h]
    rfl
  have hfirst := note_past h (length_resize 12 0 msg)
  -- the second string leaves it at that
  have hset' : ¬ Packable.string.Missing text := id
  obtain ⟨s, hs, rfl⟩ := pack_field_writes .base128 .string
    (fault_follows .outOfBounds (Packable.string.encode .base128 0 text).length) 0 hset'
    (.error .outOfBounds) [] rfl (by rw [List.length_nil]; omega)
  have hsecond : Packable.string.packField .base128 (.error .outOfBounds : BufferStream) 0 text =
      .ok (.error .outOfBounds) := hs
  have hpass : notes.pack .base128 (.ok (.new (resize 12 0 msg)) : BufferStream)
      ([text, text], ()) = .ok (.error .outOfBounds) := by
    show (List.foldlM (fun s value => Packable.string.packField .base128 s 0 value)
      (Except.ok (Datastream.new (resize 12 0 msg)) : BufferStream) [text, text] >>= Except.ok) = _
    rw [List.foldlM_cons, hfirst]
    show ((Packable.string.packField .base128 (Except.error Fault.outOfBounds : BufferStream) 0 text
      >>= Except.ok) >>= Except.ok) = _
    rw [hsecond]
    rfl
  rw [pack_vector_of_fault msg hsize hpass]

end LongNotes

/-- A message of two strings of 2^31 bytes is not packed. -/
theorem long_notes_unpacked :
    ¬ ∀ (io : Varints) (S : Type) (b : Body S) (v : S) (msg : Text),
      ((b.packVector io msg v).2 = some (.threw .requiredFieldNotSet) ↔ b.Missing v) ∧
        (b.Missing v → (b.packVector io msg v).1 = msg) ∧
        (¬ b.Missing v → (b.packVector io msg v).2 = none) := by
  intro h
  let _ := Machine.x86
  obtain ⟨text, htext⟩ : ∃ text : Text, text.length = 2 ^ 31 :=
    ⟨List.replicate (2 ^ 31) 0, List.length_replicate⟩
  have hfault := long_notes htext []
  obtain ⟨-, -, hreturns⟩ := h .base128 _ notes ([text, text], ()) []
  rw [hreturns (by simp [notes, Body.Missing, PackableFields.Missing, PackableField.Missing,
    Packable.Missing])] at hfault
  cases hfault

end BoostRpc.ProtocolBuffer
