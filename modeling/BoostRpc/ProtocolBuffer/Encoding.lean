import BoostRpc.ProtocolBuffer.Codec

/-!
# The encoding of messages

`encodeMessage` is the encoding of a message as bytes: the entries of its fields in a row, each a
tag and a payload, where the length in front of a nested message is that of its encoding.
`pack_message_follows` says that the packer writes the encoding to any stream that is long enough,
and `pack_encodes` that its two passes make a buffer with the encoding.
-/

namespace BoostRpc.ProtocolBuffer

open Raw

/-- A payload behind its length. -/
def delimited (io : Varints) (payload : Text) : Text :=
  io.unsigned (UInt32.ofNat payload.length) ++ payload

/-- A payload behind its tag. -/
def entry (io : Varints) (key : UInt32) (type : WireType) (payload : Text) : Text :=
  io.unsigned (tag key type) ++ payload

/-- The wire type of the entries of a type. -/
def wireType : {α : Type} → Element α → WireType
  | _, .fundamental t => getWireType t.size
  | _, .unsignedInt => .varint
  | _, .signedInt => .varint
  | _, .string => .lengthDelimited
  | _, .message _ => .lengthDelimited

mutual
/-- The payload of an entry. -/
def payload (io : Varints) : {α : Type} → Element α → α → Text
  | _, .fundamental t, value => (t.toBytes value).toList
  | _, .unsignedInt, value => io.unsigned value
  | _, .signedInt, value => io.signed value
  | _, .string, value => delimited io value
  | _, .message m, value => delimited io (encodeMessage io m value)

/-- The entries of a field. -/
def encodeMember (io : Varints) : {α : Type} → Field α → UInt32 → α → Text
  | _, .plain t, key, value => entry io key (wireType t) (payload io t value)
  | _, .optional _, _, none => []
  | _, .optional t, key, some value => entry io key (wireType t) (payload io t value)
  | _, .required _, _, none => []
  | _, .required t, key, some value => entry io key (wireType t) (payload io t value)
  | _, .container t, key, values =>
      values.flatMap fun value => entry io key (wireType t) (payload io t value)

/-- The entries of the fields from a number on. -/
def encodeFields (io : Varints) : {ts : List Type} → Fields ts → Nat → Values ts → Text
  | _, .nil, _, _ => []
  | _, .cons _ f fs, i, (value, values) =>
      encodeMember io f (UInt32.ofNat i) value ++ encodeFields io fs (i + 1) values

/-- The encoding of a message. -/
def encodeMessage (io : Varints) : {S : Type} → Message S → S → Text
  | _, .reflect _ fields members, value => encodeFields io fields 0 (members value)
end

mutual
/-- The required fields of a value are set, at any depth. -/
def ElementSet : {α : Type} → Element α → α → Prop
  | _, .message m, value => MessageSet m value
  | _, .fundamental _, _ => True
  | _, .unsignedInt, _ => True
  | _, .signedInt, _ => True
  | _, .string, _ => True

/-- A required field, and the required fields of the values of any field, are set. -/
def MemberSet : {α : Type} → Field α → α → Prop
  | _, .plain t, value => ElementSet t value
  | _, .optional _, none => True
  | _, .optional t, some value => ElementSet t value
  | _, .required _, none => False
  | _, .required t, some value => ElementSet t value
  | _, .container t, values => ∀ value ∈ values, ElementSet t value

def FieldsSet : {ts : List Type} → Fields ts → Values ts → Prop
  | _, .nil, _ => True
  | _, .cons _ f fs, (value, values) => MemberSet f value ∧ FieldsSet fs values

/-- The required fields of a message are set. -/
def MessageSet : {S : Type} → Message S → S → Prop
  | _, .reflect _ fields members, value => FieldsSet fields (members value)
end

/-! ## The packer writes the encoding -/

/-- A string of less than 2^32 bytes is written as a whole. -/
theorem pack_string_follows (io : Varints) {σ : Type} [OutStream σ] {limit : Nat}
    {R : σ → Text → Prop} (h : Follows limit R) (hlimit : limit < 2 ^ 32) {s : σ} {bytes : Text}
    (hs : R s bytes) {value : Text}
    (hfits : bytes.length + (delimited io value).length ≤ limit) :
    R (packString io s value) (bytes ++ delimited io value) := by
  rw [delimited, List.length_append] at hfits
  have hsize : (UInt32.ofNat value.length).toNat = value.length :=
    UInt32.toNat_ofNat_of_lt' (Nat.lt_of_le_of_lt (by omega) hlimit)
  have hput := h.putAll hs (io.unsigned (UInt32.ofNat value.length)) (by omega)
  rw [packString, hsize, List.take_length, delimited, ← List.append_assoc]
  refine h.write _ _ value hput ?_
  rw [List.length_append]
  omega

/-- An entry is written where its payload is written behind the tag. -/
theorem entry_follows (io : Varints) {σ : Type} [OutStream σ] {limit : Nat} {R : σ → Text → Prop}
    (h : Follows limit R) {s : σ} {bytes : Text} (hs : R s bytes) {key : UInt32} {type : WireType}
    {payload : Text} (hfits : bytes.length + (entry io key type payload).length ≤ limit)
    (next : σ → Except Failure σ)
    (hnext : ∀ s bytes, R s bytes → bytes.length + payload.length ≤ limit →
      ∃ s', next s = .ok s' ∧ R s' (bytes ++ payload)) :
    ∃ s', next (putUnsigned io s (tag key type)) = .ok s' ∧
      R s' (bytes ++ entry io key type payload) := by
  rw [entry, List.length_append] at hfits
  rw [entry, ← List.append_assoc]
  refine hnext _ _ (h.putAll hs (io.unsigned (tag key type)) (by omega)) ?_
  rw [List.length_append]
  omega

mutual
theorem pack_field_follows (io : Varints) {α : Type} (t : Element α) {σ : Type} [OutStream σ]
    {limit : Nat} {R : σ → Text → Prop} (h : Follows limit R) (hlimit : limit < 2 ^ 32) {s : σ}
    {bytes : Text} (hs : R s bytes) (key : UInt32) {value : α} (hset : ElementSet t value)
    (hfits : bytes.length + (entry io key (wireType t) (payload io t value)).length ≤ limit) :
    ∃ s', packField io t s key value = .ok s' ∧
      R s' (bytes ++ entry io key (wireType t) (payload io t value)) := by
  match t, value with
  | .fundamental t, value =>
      refine entry_follows io h hs hfits
        (fun s => .ok (OutStream.write s (t.toBytes value).toList)) fun s bytes hs hfits => ?_
      exact ⟨_, rfl, h.write s bytes _ hs hfits⟩
  | .unsignedInt, value =>
      refine entry_follows io h hs hfits (fun s => .ok (putUnsigned io s value))
        fun s bytes hs hfits => ?_
      exact ⟨_, rfl, h.putAll hs _ hfits⟩
  | .signedInt, value =>
      refine entry_follows io h hs hfits (fun s => .ok (putSigned io s value))
        fun s bytes hs hfits => ?_
      exact ⟨_, rfl, h.putAll hs _ hfits⟩
  | .string, value =>
      refine entry_follows io h hs hfits (fun s => .ok (packString io s value))
        fun s bytes hs hfits => ?_
      exact ⟨_, rfl, pack_string_follows io h hlimit hs hfits⟩
  | .message m, value =>
      refine entry_follows io h hs hfits (fun s => do
        let ps ← packMessage io m (⟨0⟩ : SizeStream) value
        let s := putUnsigned io s ps.size
        packMessage io m s value) fun s bytes hs hfits => ?_
      simp only [payload, delimited, List.length_append] at hfits ⊢
      -- the pass for the size counts what is written
      obtain ⟨ps, hps, hsize⟩ := pack_message_follows io m (size_follows limit) hlimit
        counts_nil hset (by rw [List.length_nil]; omega)
      rw [Counts, List.nil_append] at hsize
      have hlength := h.putAll hs
        (io.unsigned (UInt32.ofNat (encodeMessage io m value).length)) (by omega)
      obtain ⟨s', hs', hbody⟩ := pack_message_follows io m h hlimit hlength hset
        (by rw [List.length_append]; omega)
      refine ⟨s', ?_, ?_⟩
      · simp only [hps, hsize, bind, Except.bind]
        exact hs'
      · rw [← List.append_assoc]
        exact hbody

theorem pack_member_follows (io : Varints) {α : Type} (f : Field α) {σ : Type} [OutStream σ]
    {limit : Nat} {R : σ → Text → Prop} (h : Follows limit R) (hlimit : limit < 2 ^ 32) {s : σ}
    {bytes : Text} (hs : R s bytes) (key : UInt32) {value : α} (hset : MemberSet f value)
    (hfits : bytes.length + (encodeMember io f key value).length ≤ limit) :
    ∃ s', packMember io f s key value = .ok s' ∧
      R s' (bytes ++ encodeMember io f key value) := by
  match f, value with
  | .plain t, value => exact pack_field_follows io t h hlimit hs key hset hfits
  | .optional t, none =>
      refine ⟨s, rfl, ?_⟩
      rw [encodeMember, List.append_nil]
      exact hs
  | .optional t, some value => exact pack_field_follows io t h hlimit hs key hset hfits
  | .required t, none => exact absurd hset id
  | .required t, some value => exact pack_field_follows io t h hlimit hs key hset hfits
  | .container t, values =>
      simp only [encodeMember] at hfits ⊢
      simp only [MemberSet] at hset
      simp only [packMember]
      induction values generalizing s bytes with
      | nil =>
          refine ⟨s, rfl, ?_⟩
          rw [List.flatMap_nil, List.append_nil]
          exact hs
      | cons value values ih =>
          rw [List.flatMap_cons, List.length_append] at hfits
          obtain ⟨s', hs', hvalue⟩ := pack_field_follows io t h hlimit hs key
            (hset value List.mem_cons_self) (by omega)
          obtain ⟨s'', hs'', hvalues⟩ := ih hvalue
            (fun x hx => hset x (List.mem_cons_of_mem _ hx))
            (by rw [List.length_append]; omega)
          refine ⟨s'', ?_, ?_⟩
          · rw [List.foldlM_cons, hs']
            exact hs''
          · rw [List.flatMap_cons, ← List.append_assoc]
            exact hvalues

theorem pack_fields_follows (io : Varints) {ts : List Type} (fs : Fields ts) {σ : Type}
    [OutStream σ] {limit : Nat} {R : σ → Text → Prop} (h : Follows limit R)
    (hlimit : limit < 2 ^ 32) {s : σ} {bytes : Text} (hs : R s bytes) (i : Nat)
    {values : Values ts} (hset : FieldsSet fs values)
    (hfits : bytes.length + (encodeFields io fs i values).length ≤ limit) :
    ∃ s', packFields io fs i s values = .ok s' ∧
      R s' (bytes ++ encodeFields io fs i values) := by
  match fs, values with
  | .nil, _ =>
      refine ⟨s, rfl, ?_⟩
      rw [encodeFields, List.append_nil]
      exact hs
  | .cons name f fs, (value, values) =>
      simp only [encodeFields, List.length_append] at hfits ⊢
      obtain ⟨s', hs', hvalue⟩ := pack_member_follows io f h hlimit hs (UInt32.ofNat i) hset.1
        (by omega)
      obtain ⟨s'', hs'', hvalues⟩ := pack_fields_follows io fs h hlimit hvalue (i + 1) hset.2
        (by rw [List.length_append]; omega)
      refine ⟨s'', ?_, ?_⟩
      · simp only [packFields, hs', bind, Except.bind]
        exact hs''
      · rw [← List.append_assoc]
        exact hvalues

/-- The packer writes the encoding of a message whose required fields are set. -/
theorem pack_message_follows (io : Varints) {S : Type} (m : Message S) {σ : Type} [OutStream σ]
    {limit : Nat} {R : σ → Text → Prop} (h : Follows limit R) (hlimit : limit < 2 ^ 32) {s : σ}
    {bytes : Text} (hs : R s bytes) {value : S} (hset : MessageSet m value)
    (hfits : bytes.length + (encodeMessage io m value).length ≤ limit) :
    ∃ s', packMessage io m s value = .ok s' ∧ R s' (bytes ++ encodeMessage io m value) := by
  match m, value with
  | .reflect few fields members, value =>
      exact pack_fields_follows io fields h hlimit hs 0 hset hfits
end

/-! ## Two passes -/

variable (io : Varints) {S : Type} (m : Message S) {value : S}

/-- The first pass counts the bytes of the encoding. -/
theorem packsize_encodes (hset : MessageSet m value)
    (hsize : (encodeMessage io m value).length < 2 ^ 32) :
    packsize io m value = .ok (UInt32.ofNat (encodeMessage io m value).length) := by
  obtain ⟨ps, hps, hcount⟩ := pack_message_follows io m
    (size_follows (encodeMessage io m value).length) hsize counts_nil hset
    (by rw [List.length_nil]; omega)
  rw [Counts, List.nil_append] at hcount
  simp only [packsize, hps, bind, Except.bind, hcount]
  rfl

/-- The second pass fills a buffer of this size with the encoding. -/
theorem pack_encodes (msg : Text) (hset : MessageSet m value)
    (hsize : (encodeMessage io m value).length < 2 ^ 32) :
    pack io m msg value = (encodeMessage io m value, none) := by
  generalize hbuffer : resize (encodeMessage io m value).length 0 msg = buffer
  have hlength : buffer.length = (encodeMessage io m value).length := by
    rw [← hbuffer, length_resize]
  have hcount : (UInt32.ofNat (encodeMessage io m value).length).toNat =
      (encodeMessage io m value).length := UInt32.toNat_ofNat_of_lt' hsize
  have hempty : Holds buffer (Except.ok (Datastream.new buffer) : BufferStream) [] :=
    ⟨Nat.zero_le _, rfl⟩
  obtain ⟨ds, hds, -, hfilled⟩ := pack_message_follows io m (buffer_follows (by omega)) (by omega)
    hempty hset (by rw [List.length_nil]; omega)
  simp only [pack, packsize_encodes io m hset hsize, hcount, hbuffer, hds, hfilled]
  rw [List.nil_append, ← hlength, List.drop_length, List.append_nil]

end BoostRpc.ProtocolBuffer
