import BoostRpc.ProtocolBuffer.Encoding

/-!
# Packing

`pack_message_visitor` on all types that it has an overload for: `boost::optional`, `required` and
fusion sequences stand not only in the fields of a message but in the elements of its containers
and in each other. `Body.encode` is the encoding as bytes. `pack_body_writes` says that the packer
writes it to any stream that keeps up, and `pack_body_refused` that it throws instead where a
required field is not set. `pack_message_body` connects the messages that can be unpacked.
-/

namespace BoostRpc.ProtocolBuffer

open Raw

mutual
/-- The types that `pack_field` takes. -/
inductive Packable : Type → Type 1 where
  | fundamental {α : Type} (size : UInt32) (toBytes : α → List.Vector Byte size.toNat) : Packable α
  | unsignedInt : Packable UInt32
  | signedInt : Packable Int32
  /-- `std::string` -/
  | string : Packable Text
  | optional {α : Type} (t : Packable α) : Packable (Option α)
  | required {α : Type} (t : Packable α) : Packable (Option α)
  | message {S : Type} (b : Body S) : Packable S

/-- The types of fields. -/
inductive PackableField : Type → Type 1 where
  | plain {α : Type} (t : Packable α) : PackableField α
  /-- `std::vector` and `std::list` -/
  | container {α : Type} (t : Packable α) : PackableField (List α)

/-- The fields of a message. -/
inductive PackableFields : List Type → Type 1 where
  | nil : PackableFields []
  | cons {α : Type} {ts : List Type} (f : PackableField α) (fs : PackableFields ts) :
      PackableFields (α :: ts)

/-- The elements of a fusion sequence. -/
inductive Elements : List Type → Type 1 where
  | nil : Elements []
  | cons {α : Type} {ts : List Type} (t : Packable α) (row : Elements ts) : Elements (α :: ts)

/-- The types that `pack_message_visitor::pack` takes apart. -/
inductive Body : Type → Type 1 where
  /-- A reflected type. -/
  | reflect {S : Type} {ts : List Type} (fields : PackableFields ts) (members : S ≃ Values ts) :
      Body S
  /-- A fusion sequence. -/
  | sequence {S : Type} {ts : List Type} (row : Elements ts) (elements : S ≃ Values ts) : Body S
end

/-! ## Packing -/

mutual
/-- `pack_message_visitor::pack_field` -/
def Packable.packField (io : Varints) : {α : Type} → Packable α → {σ : Type} → [OutStream σ] → σ →
    UInt32 → α → Except Failure σ
  | _, .fundamental size toBytes, _, _, s, key, value =>
      let s := putUnsigned io s (tag key (getWireType size))
      .ok (OutStream.write s (toBytes value).toList)
  | _, .unsignedInt, _, _, s, key, value =>
      let s := putUnsigned io s (tag key .varint)
      .ok (putUnsigned io s value)
  | _, .signedInt, _, _, s, key, value =>
      let s := putUnsigned io s (tag key .varint)
      .ok (putSigned io s value)
  | _, .string, _, _, s, key, value =>
      let s := putUnsigned io s (tag key .lengthDelimited)
      .ok (packString io s value)
  | _, .optional _, _, _, s, _, none => .ok s
  | _, .optional t, _, _, s, key, some value => t.packField io s key value
  | _, .required _, _, _, _, _, none => .error (.threw .requiredFieldNotSet)
  | _, .required t, _, _, s, key, some value => t.packField io s key value
  | _, .message b, _, _, s, key, value => do
      let s := putUnsigned io s (tag key .lengthDelimited)
      -- `packsize( value )`
      let ps ← b.pack io (⟨0⟩ : SizeStream) value
      let s := putUnsigned io s ps.size
      b.pack io s value

/-- `pack_message_visitor::accept_member` -/
def PackableField.acceptMember (io : Varints) : {α : Type} → PackableField α → {σ : Type} →
    [OutStream σ] → σ → UInt32 → α → Except Failure σ
  | _, .plain t, _, _, s, key, value => t.packField io s key value
  | _, .container t, _, _, s, key, values =>
      values.foldlM (fun s value => t.packField io s key value) s

/-- `reflector::visit` of all fields from a number on. -/
def PackableFields.visit (io : Varints) : {ts : List Type} → PackableFields ts → Nat → {σ : Type} →
    [OutStream σ] → σ → Values ts → Except Failure σ
  | _, .nil, _, _, _, s, _ => .ok s
  | _, .cons f fs, i, _, _, s, (value, values) => do
      let s ← f.acceptMember io s (UInt32.ofNat i) value
      fs.visit io (i + 1) s values

/-- `visit_sequence` on all elements from an `id` on. -/
def Elements.visitSequence (io : Varints) : {ts : List Type} → Elements ts → UInt32 → {σ : Type} →
    [OutStream σ] → σ → Values ts → Except Failure σ
  | _, .nil, _, _, _, s, _ => .ok s
  | _, .cons t row, id, _, _, s, (value, values) => do
      let s ← t.packField io s id value
      row.visitSequence io (id + 1) s values

/-- `pack_message_visitor::pack` -/
def Body.pack (io : Varints) : {S : Type} → Body S → {σ : Type} → [OutStream σ] → σ → S →
    Except Failure σ
  | _, .reflect fields members, _, _, s, value => fields.visit io 0 s (members value)
  | _, .sequence row elements, _, _, s, value => row.visitSequence io 0 s (elements value)
end

/-- `protocol_buffer::packsize` -/
def Body.packsize (io : Varints) {S : Type} (b : Body S) (v : S) : Except Failure UInt32 := do
  let ps ← b.pack io (⟨0⟩ : SizeStream) v
  return ps.size

/-- `protocol_buffer::pack` into a `std::vector<char>`: what it holds afterwards. As for `pack`, the
undefined `msg.front()` of an empty vector is taken to do no harm. -/
def Body.packVector (io : Varints) {S : Type} (b : Body S) (msg : Text) (v : S) :
    Text × Option Failure :=
  match b.packsize io v with
  | .error e => (msg, some e)
  | .ok size =>
      let msg := resize size.toNat 0 msg
      match b.pack io (Except.ok (Datastream.new msg) : BufferStream) v with
      | .error e => (msg, some e)
      | .ok (.error fault) => (msg, some (.fault fault))
      | .ok (.ok ds) => (ds.data, none)

/-! ## The encoding -/

/-- A string behind its size, which is a `uint32_t`. -/
def chars (io : Varints) (value : Text) : Text :=
  io.unsigned (UInt32.ofNat value.length) ++ value.take (UInt32.ofNat value.length).toNat

mutual
/-- The entries that `pack_field` makes. -/
def Packable.encode (io : Varints) : {α : Type} → Packable α → UInt32 → α → Text
  | _, .fundamental size toBytes, key, value =>
      entry io key (getWireType size) (toBytes value).toList
  | _, .unsignedInt, key, value => entry io key .varint (io.unsigned value)
  | _, .signedInt, key, value => entry io key .varint (io.signed value)
  | _, .string, key, value => entry io key .lengthDelimited (chars io value)
  | _, .optional _, _, none => []
  | _, .optional t, key, some value => t.encode io key value
  | _, .required _, _, none => []
  | _, .required t, key, some value => t.encode io key value
  | _, .message b, key, value => entry io key .lengthDelimited (delimited io (b.encode io value))

/-- The entries of a field. -/
def PackableField.encode (io : Varints) : {α : Type} → PackableField α → UInt32 → α → Text
  | _, .plain t, key, value => t.encode io key value
  | _, .container t, key, values => values.flatMap fun value => t.encode io key value

/-- The entries of the fields from a number on. -/
def PackableFields.encode (io : Varints) : {ts : List Type} → PackableFields ts → Nat → Values ts →
    Text
  | _, .nil, _, _ => []
  | _, .cons f fs, i, (value, values) =>
      f.encode io (UInt32.ofNat i) value ++ fs.encode io (i + 1) values

/-- The entries of the elements from an `id` on. -/
def Elements.encode (io : Varints) : {ts : List Type} → Elements ts → UInt32 → Values ts → Text
  | _, .nil, _, _ => []
  | _, .cons t row, id, (value, values) => t.encode io id value ++ row.encode io (id + 1) values

/-- The encoding of a message. -/
def Body.encode (io : Varints) : {S : Type} → Body S → S → Text
  | _, .reflect fields members, value => fields.encode io 0 (members value)
  | _, .sequence row elements, value => row.encode io 0 (elements value)
end

mutual
/-- A required field that can be reached from the value is not set. -/
def Packable.Missing : {α : Type} → Packable α → α → Prop
  | _, .fundamental _ _, _ => False
  | _, .unsignedInt, _ => False
  | _, .signedInt, _ => False
  | _, .string, _ => False
  | _, .optional _, none => False
  | _, .optional t, some value => t.Missing value
  | _, .required _, none => True
  | _, .required t, some value => t.Missing value
  | _, .message b, value => b.Missing value

def PackableField.Missing : {α : Type} → PackableField α → α → Prop
  | _, .plain t, value => t.Missing value
  | _, .container t, values => ∃ value ∈ values, t.Missing value

def PackableFields.Missing : {ts : List Type} → PackableFields ts → Values ts → Prop
  | _, .nil, _ => False
  | _, .cons f fs, (value, values) => f.Missing value ∨ fs.Missing values

def Elements.Missing : {ts : List Type} → Elements ts → Values ts → Prop
  | _, .nil, _ => False
  | _, .cons t row, (value, values) => t.Missing value ∨ row.Missing values

/-- A required field of the message, or of what it holds, is not set. -/
def Body.Missing : {S : Type} → Body S → S → Prop
  | _, .reflect fields members, value => fields.Missing (members value)
  | _, .sequence row elements, value => row.Missing (elements value)
end

/-! ## What a stream receives -/

section Writes

variable {σ : Type} {limit : Nat} {R : σ → Text → Prop}

/-- A stream that keeps up with what it is given receives these bytes, where they stay within the
limit. -/
def Writes (limit : Nat) (R : σ → Text → Prop) (writer : σ → Except Failure σ) (a : Text) : Prop :=
  ∀ s bytes, R s bytes → bytes.length + a.length ≤ limit →
    ∃ s', writer s = .ok s' ∧ R s' (bytes ++ a)

theorem Writes.nothing : Writes limit R (fun s => .ok s) [] := fun s bytes hs _ =>
  ⟨s, rfl, by rwa [List.append_nil]⟩

/-- A writer and then another one. -/
theorem Writes.bind {first second : σ → Except Failure σ} {a b : Text}
    (hfirst : Writes limit R first a) (hsecond : Writes limit R second b) :
    Writes limit R (fun s => first s >>= second) (a ++ b) := by
  intro s bytes hs hlimit
  rw [List.length_append] at hlimit
  obtain ⟨s₁, h₁, hs₁⟩ := hfirst s bytes hs (by omega)
  obtain ⟨s₂, h₂, hs₂⟩ := hsecond s₁ (bytes ++ a) hs₁ (by rw [List.length_append]; omega)
  refine ⟨s₂, ?_, by rwa [← List.append_assoc]⟩
  show (first s >>= second) = .ok s₂
  rw [h₁]
  exact h₂

/-- Values one after the other. -/
theorem writes_each {α : Type} {writer : σ → α → Except Failure σ} {f : α → Text}
    {values : List α} (h : ∀ value ∈ values, Writes limit R (fun s => writer s value) (f value)) :
    Writes limit R (fun s => values.foldlM writer s) (values.flatMap f) := by
  induction values with
  | nil => exact .nothing
  | cons value values ih =>
      have hrest := ih fun x hx => h x (List.mem_cons_of_mem value hx)
      simp only [List.foldlM_cons, List.flatMap_cons]
      exact (h value List.mem_cons_self).bind hrest

variable [OutStream σ]

theorem writes_unsigned (io : Varints) (h : Follows limit R) (n : UInt32) :
    Writes limit R (fun s => .ok (putUnsigned io s n)) (io.unsigned n) :=
  fun _ _ hs hlimit => ⟨_, rfl, h.putAll hs _ hlimit⟩

theorem writes_signed (io : Varints) (h : Follows limit R) (n : Int32) :
    Writes limit R (fun s => .ok (putSigned io s n)) (io.signed n) :=
  fun _ _ hs hlimit => ⟨_, rfl, h.putAll hs _ hlimit⟩

/-- What is written at once. -/
theorem writes_bytes (h : Follows limit R) (d : Text) :
    Writes limit R (fun s => .ok (OutStream.write s d)) d :=
  fun s bytes hs hlimit => ⟨_, rfl, h.write s bytes d hs hlimit⟩

/-- A payload behind its tag. -/
theorem writes_entry (io : Varints) (h : Follows limit R) (key : UInt32) (type : WireType)
    {writer : σ → Except Failure σ} {payload : Text} (hpayload : Writes limit R writer payload) :
    Writes limit R (fun s => writer (putUnsigned io s (tag key type)))
      (entry io key type payload) :=
  (writes_unsigned io h (tag key type)).bind hpayload

theorem writes_string (io : Varints) (h : Follows limit R) (value : Text) :
    Writes limit R (fun s => .ok (packString io s value)) (chars io value) :=
  (writes_unsigned io h _).bind (writes_bytes h _)

/-- A nested message behind the size that another pass has counted. -/
theorem writes_delimited (io : Varints) (h : Follows limit R) {ps : SizeStream} {payload : Text}
    (hsize : Counts ps payload) {writer : σ → Except Failure σ}
    (hpayload : Writes limit R writer payload) :
    Writes limit R (fun s => writer (putUnsigned io s ps.size)) (delimited io payload) := by
  rw [show ps.size = UInt32.ofNat payload.length from hsize]
  exact (writes_unsigned io h _).bind hpayload

end Writes

/-- A fresh size stream counts the bytes that are written to it. -/
theorem counts_written {writer : SizeStream → Except Failure SizeStream} {a : Text}
    (h : Writes a.length Counts writer a) : ∃ ps, writer ⟨0⟩ = .ok ps ∧ Counts ps a :=
  h ⟨0⟩ [] counts_nil (by rw [List.length_nil, Nat.zero_add])

mutual
theorem pack_field_writes (io : Varints) {α : Type} (t : Packable α) {σ : Type} [OutStream σ]
    {limit : Nat} {R : σ → Text → Prop} (h : Follows limit R) (key : UInt32) {value : α}
    (hset : ¬ t.Missing value) :
    Writes limit R (fun s => t.packField io s key value) (t.encode io key value) := by
  match t, value with
  | .fundamental size toBytes, value => exact writes_entry io h key _ (writes_bytes h _)
  | .unsignedInt, value => exact writes_entry io h key _ (writes_unsigned io h value)
  | .signedInt, value => exact writes_entry io h key _ (writes_signed io h value)
  | .string, value => exact writes_entry io h key _ (writes_string io h value)
  | .optional t, none => exact .nothing
  | .optional t, some value => exact pack_field_writes io t h key hset
  | .required t, none => exact absurd trivial hset
  | .required t, some value => exact pack_field_writes io t h key hset
  | .message b, value =>
      -- the pass for the size counts what is written
      obtain ⟨ps, hps, hsize⟩ := counts_written (pack_body_writes io b (size_follows _) hset)
      have hbody := writes_delimited io h hsize (pack_body_writes io b h hset)
      have hentry := writes_entry io h key .lengthDelimited hbody
      simp only [Packable.packField, hps]
      exact hentry

theorem accept_member_writes (io : Varints) {α : Type} (f : PackableField α) {σ : Type}
    [OutStream σ] {limit : Nat} {R : σ → Text → Prop} (h : Follows limit R) (key : UInt32)
    {value : α} (hset : ¬ f.Missing value) :
    Writes limit R (fun s => f.acceptMember io s key value) (f.encode io key value) := by
  match f, value with
  | .plain t, value => exact pack_field_writes io t h key hset
  | .container t, values =>
      exact writes_each fun value hvalue =>
        pack_field_writes io t h key fun hmissing => hset ⟨value, hvalue, hmissing⟩

theorem visit_writes (io : Varints) {ts : List Type} (fs : PackableFields ts) {σ : Type}
    [OutStream σ] {limit : Nat} {R : σ → Text → Prop} (h : Follows limit R) (i : Nat)
    {values : Values ts} (hset : ¬ fs.Missing values) :
    Writes limit R (fun s => fs.visit io i s values) (fs.encode io i values) := by
  match fs, values with
  | .nil, _ => exact .nothing
  | .cons f fs, (value, values) =>
      obtain ⟨hvalue, hvalues⟩ := not_or.mp hset
      exact (accept_member_writes io f h _ hvalue).bind (visit_writes io fs h (i + 1) hvalues)

theorem visit_sequence_writes (io : Varints) {ts : List Type} (row : Elements ts) {σ : Type}
    [OutStream σ] {limit : Nat} {R : σ → Text → Prop} (h : Follows limit R) (id : UInt32)
    {values : Values ts} (hset : ¬ row.Missing values) :
    Writes limit R (fun s => row.visitSequence io id s values) (row.encode io id values) := by
  match row, values with
  | .nil, _ => exact .nothing
  | .cons t row, (value, values) =>
      obtain ⟨hvalue, hvalues⟩ := not_or.mp hset
      exact (pack_field_writes io t h id hvalue).bind
        (visit_sequence_writes io row h (id + 1) hvalues)

/-- The packer writes the encoding of a message whose required fields are set. -/
theorem pack_body_writes (io : Varints) {S : Type} (b : Body S) {σ : Type} [OutStream σ]
    {limit : Nat} {R : σ → Text → Prop} (h : Follows limit R) {value : S}
    (hset : ¬ b.Missing value) :
    Writes limit R (fun s => b.pack io s value) (b.encode io value) := by
  match b, value with
  | .reflect fields members, value => exact visit_writes io fields h 0 hset
  | .sequence row elements, value => exact visit_sequence_writes io row h 0 hset
end

/-! ## Refusal -/

/-- Nothing is asked of the stream. -/
theorem any_follows {σ : Type} [OutStream σ] (limit : Nat) :
    Follows limit (fun (_ : σ) (_ : Text) => True) :=
  ⟨fun _ _ _ _ _ => trivial, fun _ _ _ _ _ => trivial⟩

/-- What writes to any stream comes to its end. -/
theorem Writes.total {σ : Type} {writer : σ → Except Failure σ} {a : Text}
    (h : Writes a.length (fun _ _ => True) writer a) (s : σ) : ∃ s', writer s = .ok s' := by
  obtain ⟨s', hs', -⟩ := h s [] trivial (by rw [List.length_nil, Nat.zero_add])
  exact ⟨s', hs'⟩

/-- A writer throws since a required field is not set. -/
def Refused {β : Type} (r : Except Failure β) : Prop := r = .error (.threw .requiredFieldNotSet)

/-- What is refused first, or behind a writer that comes to its end, is refused. -/
theorem refused_bind {σ β : Type} {first : Except Failure σ} {second : σ → Except Failure β}
    (h : Refused first ∨ (∃ s, first = .ok s) ∧ ∀ s, Refused (second s)) :
    Refused (first >>= second) := by
  rcases h with h | ⟨⟨s, hs⟩, h⟩
  · rw [show first = _ from h]
    rfl
  · rw [hs]
    exact h s

/-- The first value that is refused ends the loop. -/
theorem refused_each {α σ : Type} {writer : σ → α → Except Failure σ} {bad : α → Prop}
    {values : List α} (hbad : ∀ value ∈ values, bad value → ∀ s, Refused (writer s value))
    (hgood : ∀ value ∈ values, ¬ bad value → ∀ s, ∃ s', writer s value = .ok s')
    (h : ∃ value ∈ values, bad value) (s : σ) : Refused (values.foldlM writer s) := by
  induction values generalizing s with
  | nil => exact absurd h (by simp)
  | cons value values ih =>
      rw [List.foldlM_cons]
      apply refused_bind
      by_cases hvalue : bad value
      · exact .inl (hbad value List.mem_cons_self hvalue s)
      · refine .inr ⟨hgood value List.mem_cons_self hvalue s, fun s => ?_⟩
        refine ih (fun x hx => hbad x (List.mem_cons_of_mem value hx))
          (fun x hx => hgood x (List.mem_cons_of_mem value hx)) ?_ s
        obtain ⟨x, hx, hxbad⟩ := h
        rcases List.mem_cons.mp hx with rfl | hx
        · exact absurd hxbad hvalue
        · exact ⟨x, hx, hxbad⟩

mutual
theorem pack_field_refused (io : Varints) {α : Type} (t : Packable α) {σ : Type} [OutStream σ]
    (key : UInt32) {value : α} (h : t.Missing value) (s : σ) :
    Refused (t.packField io s key value) := by
  match t, value with
  | .fundamental size toBytes, value => exact h.elim
  | .unsignedInt, value => exact h.elim
  | .signedInt, value => exact h.elim
  | .string, value => exact h.elim
  | .optional t, none => exact h.elim
  | .optional t, some value => exact pack_field_refused io t key h s
  | .required t, none => exact rfl
  | .required t, some value => exact pack_field_refused io t key h s
  -- the pass for the size throws
  | .message b, value => exact refused_bind (.inl (pack_body_refused io b h _))

theorem accept_member_refused (io : Varints) {α : Type} (f : PackableField α) {σ : Type}
    [OutStream σ] (key : UInt32) {value : α} (h : f.Missing value) (s : σ) :
    Refused (f.acceptMember io s key value) := by
  match f, value with
  | .plain t, value => exact pack_field_refused io t key h s
  | .container t, values =>
      exact refused_each (fun value _ hvalue => pack_field_refused io t key hvalue)
        (fun value _ hvalue => (pack_field_writes io t (any_follows _) key hvalue).total) h s

theorem visit_refused (io : Varints) {ts : List Type} (fs : PackableFields ts) {σ : Type}
    [OutStream σ] (i : Nat) {values : Values ts} (h : fs.Missing values) (s : σ) :
    Refused (fs.visit io i s values) := by
  match fs, values with
  | .nil, _ => exact h.elim
  | .cons f fs, (value, values) =>
      apply refused_bind
      by_cases hvalue : f.Missing value
      · exact .inl (accept_member_refused io f _ hvalue s)
      · exact .inr ⟨(accept_member_writes io f (any_follows _) _ hvalue).total s,
          visit_refused io fs (i + 1) (h.resolve_left hvalue)⟩

theorem visit_sequence_refused (io : Varints) {ts : List Type} (row : Elements ts) {σ : Type}
    [OutStream σ] (id : UInt32) {values : Values ts} (h : row.Missing values) (s : σ) :
    Refused (row.visitSequence io id s values) := by
  match row, values with
  | .nil, _ => exact h.elim
  | .cons t row, (value, values) =>
      apply refused_bind
      by_cases hvalue : t.Missing value
      · exact .inl (pack_field_refused io t id hvalue s)
      · exact .inr ⟨(pack_field_writes io t (any_follows _) id hvalue).total s,
          visit_sequence_refused io row (id + 1) (h.resolve_left hvalue)⟩

/-- The packer throws where a required field is not set, on any stream. -/
theorem pack_body_refused (io : Varints) {S : Type} (b : Body S) {σ : Type} [OutStream σ]
    {value : S} (h : b.Missing value) (s : σ) : Refused (b.pack io s value) := by
  match b, value with
  | .reflect fields members, value => exact visit_refused io fields 0 h s
  | .sequence row elements, value => exact visit_sequence_refused io row 0 h s
end

/-! ## The two passes -/

section Passes

variable (io : Varints) {S : Type} (b : Body S) {value : S}

/-- A stream without bounds receives what it is given. -/
theorem text_follows (limit : Nat) : Follows limit (fun (s : Text) bytes => s = bytes) :=
  ⟨fun _ _ _ hs _ => by rw [hs]; rfl, fun _ _ _ hs _ => by rw [hs]; rfl⟩

/-- The encoding is what a stream without bounds receives. -/
theorem pack_body_text (hset : ¬ b.Missing value) :
    b.pack io ([] : Text) value = .ok (b.encode io value) := by
  obtain ⟨s, hs, rfl⟩ := pack_body_writes io b (text_follows _) hset [] [] rfl (Nat.le_refl _)
  exact hs

/-- `packsize` counts the bytes of the encoding. -/
theorem packsize_body (hset : ¬ b.Missing value) :
    b.packsize io value = .ok (UInt32.ofNat (b.encode io value).length) := by
  obtain ⟨ps, hps, hsize⟩ := counts_written (pack_body_writes io b (size_follows _) hset)
  rw [Body.packsize, hps, ← show ps.size = _ from hsize]
  rfl

/-- The second pass fills a buffer of the size that the first one counts. -/
theorem pack_vector_body (msg : Text) (hset : ¬ b.Missing value)
    (hlen : (b.encode io value).length < 2 ^ 32) :
    b.packVector io msg value = (b.encode io value, none) := by
  have hsize := UInt32.toNat_ofNat_of_lt' hlen
  have hbuffer : (resize (b.encode io value).length 0 msg).length = (b.encode io value).length :=
    length_resize _ _ _
  have hnew : Holds (resize (b.encode io value).length 0 msg)
      (.ok (.new (resize (b.encode io value).length 0 msg))) [] := ⟨Nat.zero_le _, rfl⟩
  obtain ⟨ds, hds, -, hfilled⟩ := pack_body_writes io b
    (buffer_follows (hbuffer.symm ▸ hlen)) hset _ [] hnew (by rw [hbuffer, List.length_nil]; omega)
  rw [List.drop_eq_nil_of_le (Nat.le_of_eq (by rw [hbuffer]; rfl)), List.append_nil,
    List.nil_append] at hfilled
  simp only [Body.packVector, packsize_body io b hset, hsize, hds, hfilled]

/-- A message with a required field that is not set leaves the buffer alone. -/
theorem pack_vector_refused (msg : Text) (h : b.Missing value) :
    b.packVector io msg value = (msg, some (.threw .requiredFieldNotSet)) := by
  have hsize : Refused (b.packsize io value) := refused_bind (.inl (pack_body_refused io b h _))
  rw [Body.packVector, show b.packsize io value = _ from hsize]

end Passes

/-! ## The messages that can be unpacked -/

mutual
/-- The type of an element, as the packer takes it. -/
def Element.packable : {α : Type} → Element α → Packable α
  | _, .fundamental t => .fundamental t.size t.toBytes
  | _, .unsignedInt => .unsignedInt
  | _, .signedInt => .signedInt
  | _, .string => .string
  | _, .message m => .message m.body

def Field.packable : {α : Type} → Field α → PackableField α
  | _, .plain t => .plain t.packable
  | _, .optional t => .plain (.optional t.packable)
  | _, .required t => .plain (.required t.packable)
  | _, .container t => .container t.packable

def Fields.packable : {ts : List Type} → Fields ts → PackableFields ts
  | _, .nil => .nil
  | _, .cons _ f fs => .cons f.packable fs.packable

/-- The type of a message, as the packer takes it. -/
def Message.body : {S : Type} → Message S → Body S
  | _, .reflect _ fields members => .reflect fields.packable members
end

mutual
theorem pack_field_packable (io : Varints) {α : Type} (t : Element α) {σ : Type} [OutStream σ]
    (s : σ) (key : UInt32) (value : α) :
    packField io t s key value = t.packable.packField io s key value := by
  match t, value with
  | .fundamental t, value => rfl
  | .unsignedInt, value => rfl
  | .signedInt, value => rfl
  | .string, value => rfl
  | .message m, value =>
      simp only [packField, Element.packable, Packable.packField, pack_message_body]

theorem pack_member_packable (io : Varints) {α : Type} (f : Field α) {σ : Type} [OutStream σ]
    (s : σ) (key : UInt32) (value : α) :
    packMember io f s key value = f.packable.acceptMember io s key value := by
  match f, value with
  | .plain t, value => exact pack_field_packable io t s key value
  | .optional t, none => rfl
  | .optional t, some value => exact pack_field_packable io t s key value
  | .required t, none => rfl
  | .required t, some value => exact pack_field_packable io t s key value
  | .container t, values =>
      simp only [packMember, Field.packable, PackableField.acceptMember, pack_field_packable io t]

theorem pack_fields_packable (io : Varints) {ts : List Type} (fs : Fields ts) {σ : Type}
    [OutStream σ] (i : Nat) (s : σ) (values : Values ts) :
    packFields io fs i s values = fs.packable.visit io i s values := by
  match fs, values with
  | .nil, _ => rfl
  | .cons name f fs, (value, values) =>
      simp only [packFields, Fields.packable, PackableFields.visit, pack_member_packable io f,
        pack_fields_packable io fs]

/-- The packer treats a message that can be unpacked as any other. -/
theorem pack_message_body (io : Varints) {S : Type} (m : Message S) {σ : Type} [OutStream σ] (s : σ)
    (value : S) : packMessage io m s value = m.body.pack io s value := by
  match m, value with
  | .reflect few fields members, value => exact pack_fields_packable io fields 0 s _
end

/-- So do its two passes. -/
theorem pack_eq_pack_vector (io : Varints) {S : Type} (m : Message S) (msg : Text) (value : S) :
    pack io m msg value = m.body.packVector io msg value := by
  rw [pack, packsize, pack_message_body]
  simp only [pack_message_body]
  rfl

mutual
theorem element_set_iff {α : Type} (t : Element α) (value : α) :
    ElementSet t value ↔ ¬ t.packable.Missing value := by
  match t, value with
  | .fundamental t, value => exact ⟨fun _ => id, fun _ => trivial⟩
  | .unsignedInt, value => exact ⟨fun _ => id, fun _ => trivial⟩
  | .signedInt, value => exact ⟨fun _ => id, fun _ => trivial⟩
  | .string, value => exact ⟨fun _ => id, fun _ => trivial⟩
  | .message m, value => exact message_set_iff m value

theorem member_set_iff {α : Type} (f : Field α) (value : α) :
    MemberSet f value ↔ ¬ f.packable.Missing value := by
  match f, value with
  | .plain t, value => exact element_set_iff t value
  | .optional t, none => exact ⟨fun _ => id, fun _ => trivial⟩
  | .optional t, some value => exact element_set_iff t value
  | .required t, none => exact ⟨False.elim, fun h => h trivial⟩
  | .required t, some value => exact element_set_iff t value
  | .container t, values =>
      simp only [MemberSet, Field.packable, PackableField.Missing, element_set_iff t, not_exists,
        not_and]

theorem fields_set_iff {ts : List Type} (fs : Fields ts) (values : Values ts) :
    FieldsSet fs values ↔ ¬ fs.packable.Missing values := by
  match fs, values with
  | .nil, _ => exact ⟨fun _ => id, fun _ => trivial⟩
  | .cons name f fs, (value, values) =>
      exact (and_congr (member_set_iff f value) (fields_set_iff fs values)).trans not_or.symm

/-- The required fields of a message are set where none is missing. -/
theorem message_set_iff {S : Type} (m : Message S) (value : S) :
    MessageSet m value ↔ ¬ m.body.Missing value := by
  match m, value with
  | .reflect few fields members, value => exact fields_set_iff fields (members value)
end

end BoostRpc.ProtocolBuffer
