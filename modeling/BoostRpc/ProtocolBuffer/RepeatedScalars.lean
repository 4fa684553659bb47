import BoostRpc.ProtocolBuffer.Mismatch
import BoostRpc.ProtocolBuffer.Packing

/-!
# Repeated scalars

The visitor that unpacks a container, of any type but `std::string`, reads its elements as nested
messages. It never adds a scalar: `results_message` says that no bytes at all are unpacked into a
message with an element in a container of scalars. `scalars_round_trip_iff` says which messages come
back.
-/

namespace BoostRpc.ProtocolBuffer

open Raw

variable {α β γ : Type}

/-- What the code returns satisfies `P`, on every stream. -/
def Results (P : β → Prop) (body : Unpack β) : Prop := ∀ s x s', body s = .ok (x, s') → P x

theorem Results.pure {P : β → Prop} {x : β} (h : P x) : Results P (Pure.pure x) := by
  intro s y s' hy
  cases hy
  exact h

theorem Results.throw (P : β → Prop) (e : Failure) : Results P (throw e) := by
  intro s x s' hx
  cases hx

theorem results_any (body : Unpack β) : Results (fun _ => True) body := fun _ _ _ _ => trivial

/-- Code and then other code. -/
theorem Results.bind {Q : β → Prop} {P : γ → Prop} {first : Unpack β} {second : β → Unpack γ}
    (hfirst : Results Q first) (hsecond : ∀ x, Q x → Results P (second x)) :
    Results P (first >>= second) := by
  intro s y s' hy
  cases hs : first s with
  | error e => cases (bind_of_error hs).symm.trans hy
  | ok p => exact hsecond p.1 (hfirst s p.1 p.2 hs) p.2 y s' ((bind_of_ok hs).symm.trans hy)

/-- Code behind a test of the key. -/
theorem Results.behind {P : γ → Prop} (first : Unpack β) {second : β → Unpack γ}
    (h : ∀ x, Results P (second x)) : Results P (first >>= second) :=
  (results_any first).bind fun x _ => h x

/-- Code on a part of a value. -/
theorem Results.within {P : α → Prop} {Q : β → Prop} {body : Unpack (α × Bool)}
    (h : Results (fun p => P p.1) body) {put : α → β} (hput : ∀ x, P x → Q (put x)) :
    Results (fun p => Q p.1) (within put body) :=
  h.bind fun p hp => .pure (hput p.1 hp)

/-- Code on a nested stream. -/
theorem Results.nested {P : β → Prop} {body : Unpack β} (h : Results P body) (size : UInt32) :
    Results P (nested size body) := by
  refine Results.behind (peek size) fun data => ?_
  cases hdata : body (.new data) with
  | error e => exact .throw P e
  | ok p => exact .pure (h _ p.1 p.2 hdata)

theorem Results.sized {P : β → Prop} {body : Unpack (β × Bool)}
    (h : Results (fun p => P p.1) body) (io : Varints) (name : Text) :
    Results (fun p => P p.1) (unpackSized io name body) := by
  refine Results.behind _ fun size => Results.behind remaining fun left => ?_
  split
  · refine (h.nested size).bind ?_
    rintro ⟨value, read⟩ hp
    cases read with
    | false => exact .pure hp
    | true => exact Results.behind _ fun _ => Results.behind _ fun _ => .pure hp
  · exact .throw _ _

/-- What every turn of the loop preserves, the loop preserves. -/
theorem Results.loop {P : β → Prop} {io : Varints}
    {unpackField : UInt32 → UInt32 → β → Unpack (β × Bool)}
    (h : ∀ field type x, P x → Results (fun p => P p.1) (unpackField field type x)) (fuel : Nat)
    {x : β} (hx : P x) : Results (fun p => P p.1) (unpackLoop io unpackField fuel x) := by
  induction fuel generalizing x with
  | zero => exact .throw _ _
  | succ fuel ih =>
      refine Results.behind remaining fun left => ?_
      split
      · exact .pure hx
      refine Results.behind _ fun tkey => Results.behind valid fun inside => ?_
      split
      · exact .pure hx
      refine (h _ _ x hx).bind ?_
      rintro ⟨value, error⟩ hp
      cases error with
      | true => exact .pure hp
      | false => exact ih hp

/-! ## Default-constructed values -/

mutual
theorem element_readable_construct {α : Type} (t : Element α) (fill : Byte) :
    ElementReadable t (construct fill t) := by
  match t with
  | .fundamental t => trivial
  | .unsignedInt => trivial
  | .signedInt => trivial
  | .string => trivial
  | .message m => exact message_readable_construct m fill

theorem member_readable_construct {α : Type} (f : Field α) (fill : Byte) :
    MemberReadable f (constructMember fill f) := by
  match f with
  | .plain t => exact element_readable_construct t fill
  | .optional t => trivial
  | .required t => trivial
  | .container t => exact ⟨.inr rfl, List.forall_mem_nil _⟩

theorem fields_readable_construct {ts : List Type} (fs : Fields ts) (fill : Byte) :
    FieldsReadable fs (constructFields fill fs) := by
  match fs with
  | .nil => trivial
  | .cons name f fs =>
      exact ⟨member_readable_construct f fill, fields_readable_construct fs fill⟩

/-- The containers of a default-constructed message are empty. -/
theorem message_readable_construct {S : Type} (m : Message S) (fill : Byte) :
    MessageReadable m (constructMessage fill m) := by
  match m with
  | .reflect few fields members =>
      simp only [MessageReadable, constructMessage, Equiv.apply_symm_apply]
      exact fields_readable_construct fields fill
end

/-! ## What is unpacked -/

mutual
theorem results_element (io : Varints) {α : Type} (t : Element α) (name : Text)
    (key field type : UInt32) {value : α} (h : ElementReadable t value) :
    Results (fun p => ElementReadable t p.1) (unpackElement io t name key field type value) := by
  match t, value with
  | .fundamental t, value => exact fun _ _ _ _ => trivial
  | .unsignedInt, value => exact fun _ _ _ _ => trivial
  | .signedInt, value => exact fun _ _ _ _ => trivial
  | .string, value => exact fun _ _ _ _ => trivial
  | .message m, value =>
      exact Results.behind _ fun _ => ((results_message io m h).sized io name).bind
        fun p hp => .pure hp

theorem results_back (io : Varints) {α : Type} (t : Element α) (name : Text)
    (key field type : UInt32) {values : List α} (h : MemberReadable (.container t) values) :
    Results (fun p => MemberReadable (.container t) p.1)
      (unpackBack io t name key field type values) := by
  match t, values with
  | .string, values => exact fun _ _ _ _ => ⟨.inl trivial, fun _ _ => trivial⟩
  | .message m, values =>
      refine Results.behind _ fun _ =>
        ((results_message io m (message_readable_construct m 0)).sized io name).bind fun p hp => ?_
      refine .pure ⟨.inl trivial, ?_⟩
      show ∀ value ∈ if p.2.1 = true then values ++ [p.1] else values, MessageReadable m value
      split
      · intro value hvalue
        rcases List.mem_append.mp hvalue with hvalue | hvalue
        · exact h.2 value hvalue
        · rw [List.mem_singleton.mp hvalue]
          exact hp
      · exact h.2
  -- no element of another type is added
  | .fundamental t, values => exact Results.behind _ fun _ => .throw _ _
  | .unsignedInt, values => exact Results.behind _ fun _ => .throw _ _
  | .signedInt, values => exact Results.behind _ fun _ => .throw _ _

theorem results_member (io : Varints) {α : Type} (f : Field α) (name : Text)
    (key field type : UInt32) {value : α} (h : MemberReadable f value) :
    Results (fun p => MemberReadable f p.1) (unpackMember io f name key field type value) := by
  match f, value with
  | .plain t, value => exact results_element io t name key field type h
  | .optional t, value =>
      have hvalue : ElementReadable t (value.getD (construct 0 t)) := by
        cases value with
        | none => exact element_readable_construct t 0
        | some value => exact h
      exact (results_element io t name key field type hvalue).bind fun p hp => .pure hp
  | .required t, value =>
      have hvalue : ElementReadable t (value.getD (construct 0 t)) := by
        cases value with
        | none => exact element_readable_construct t 0
        | some value => exact h
      exact (results_element io t name key field type hvalue).bind fun p hp => .pure hp
  | .container t, values => exact results_back io t name key field type h

theorem results_fields (io : Varints) {ts : List Type} (fs : Fields ts) (i : Nat)
    (field type : UInt32) {values : Values ts} (h : FieldsReadable fs values) :
    Results (fun p => FieldsReadable fs p.1) (unpackFields io fs i field type values) := by
  match fs, values with
  | .nil, _ => exact .throw _ _
  | .cons name f fs, (value, values) =>
      rw [unpackFields]
      split
      · exact (results_member io f name _ field type h.1).bind fun p hp => .pure ⟨hp, h.2⟩
      · exact (results_fields io fs (i + 1) field type h.2).bind fun p hp => .pure ⟨h.1, hp⟩

/-- A message that is unpacked into one without elements in containers of scalars has none. -/
theorem results_message (io : Varints) {S : Type} (m : Message S) {value : S}
    (h : MessageReadable m value) :
    Results (fun p => MessageReadable m p.1) (unpackMessage io m value) := by
  match m, value with
  | .reflect few fields members, value =>
      have hturn : ∀ field type values, FieldsReadable fields values →
          Results (fun p => FieldsReadable fields p.1)
            (unpackFields io fields 0 field type values) :=
        fun field type _ hvalues => results_fields io fields 0 field type hvalues
      refine Results.behind turns fun fuel => (Results.loop hturn fuel h).bind fun p hp => .pure ?_
      simp only [MessageReadable, Equiv.apply_symm_apply]
      exact hp
end

/-! ## The round trip -/

/-- The containers of scalars in what is unpacked into a default-constructed message are empty. -/
theorem unpack_readable (io : Varints) {S : Type} (m : Message S) {bytes : Text} {fill : Byte}
    {v : S} {read : Bool} (h : unpack io m bytes (constructMessage fill m) = .ok (v, read)) :
    MessageReadable m v := by
  have hfresh := message_readable_construct m fill
  unfold unpack at h
  split at h
  · cases h
    exact hfresh
  · split at h
    · rename_i result s' hs'
      cases h
      exact results_message io m hfresh _ _ s' hs'
    · cases h

/-- The value is packed, and unpacked from this into a default-constructed message, without an
error. -/
def ComesBack (io : Varints) {S : Type} (m : Message S) (msg : Text) (fill : Byte) (v : S) : Prop :=
  ∃ bytes, pack io m msg v = (bytes, none) ∧
    unpack io m bytes (constructMessage fill m) = .ok (v, true)

/-- A message with an element in a container of scalars, at any depth, does not come back. Any other
whose required fields are set does, where its encoding is shorter than 2^32 bytes. -/
theorem scalars_round_trip_iff (io : Varints) {S : Type} (m : Message S) (v : S) (msg : Text)
    (fill : Byte) :
    (ComesBack io m msg fill v → MessageSet m v ∧ MessageReadable m v) ∧
      ((encodeMessage io m v).length < 2 ^ 32 →
        (ComesBack io m msg fill v ↔ MessageSet m v ∧ MessageReadable m v)) := by
  have hback : ComesBack io m msg fill v → MessageSet m v ∧ MessageReadable m v := by
    intro h
    obtain ⟨bytes, hpack, hunpack⟩ := h
    refine ⟨?_, unpack_readable io m hunpack⟩
    rw [message_set_iff]
    intro hmissing
    rw [pack_eq_pack_vector, pack_vector_refused io m.body msg hmissing] at hpack
    cases hpack
  refine ⟨hback, fun hsize => ⟨hback, ?_⟩⟩
  intro h
  obtain ⟨hset, hread⟩ := h
  exact ⟨_, pack_encodes io m msg hset hsize, unpack_encoded io m v hset hread hsize fill⟩

/-- The messages with a container of `unsigned_int`. -/
def numbers : Message (List UInt32 × Unit) :=
  .reflect (by decide) (.cons (str "numbers") (.container .unsignedInt) .nil) (Equiv.refl _)

/-- A number in a container does not come back. -/
theorem number_unread :
    ¬ ∀ (io : Varints) (S : Type) (m : Message S) (v : S) (msg : Text) (fill : Byte),
      MessageSet m v → (encodeMessage io m v).length < 2 ^ 32 → ComesBack io m msg fill v := by
  intro h
  let _ := Machine.x86
  have hset : MessageSet numbers ([7], ()) := ⟨fun _ _ => trivial, trivial⟩
  have hsize : (encodeMessage .base128 numbers ([7], ())).length < 2 ^ 32 := by
    simp [numbers, encodeMessage, encodeFields, encodeMember, entry, payload, wireType,
      Varints.base128, tag, WireType.value, Base128.code_small]
  obtain ⟨bytes, -, hunpack⟩ := h .base128 _ numbers ([7], ()) [] 0 hset hsize
  rcases (unpack_readable .base128 numbers hunpack).1.1 with hscalar | hempty
  · exact hscalar
  · cases hempty

end BoostRpc.ProtocolBuffer
