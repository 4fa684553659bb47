import BoostRpc.ProtocolBuffer.RoundTrip

/-!
# Containers of scalars

The packer writes the elements of a container of scalars with their own wire type, and the unpacker
expects another one. `message_mismatches` says that a message with such an element, at any depth, is
not read back: `unpack` throws.
-/

namespace BoostRpc.ProtocolBuffer

open Raw

variable {α β γ : Type}

/-- On any stream that goes on with these bytes the code throws for a field with another key or
wire type. -/
def Mismatches (body : Unpack β) (bytes : Text) : Prop :=
  ∀ s r, Inside s → s.rest = bytes ++ r → ∃ name, body s = .error (.threw (.keyTypeMismatch name))

/-- The loop throws so in front of these bytes or in between. -/
def Breaks (io : Varints) (unpackField : UInt32 → UInt32 → β → Unpack (β × Bool)) (bytes : Text)
    (x : β) : Prop :=
  ∀ s r, Inside s → s.rest = bytes ++ r → ∃ k name, k ≤ bytes.length ∧ ∀ fuel,
    unpackLoop io unpackField (fuel + k) x s = .error (.threw (.keyTypeMismatch name))

theorem bind_of_error {first : Unpack β} {second : β → Unpack γ} {s : Datastream} {e : Failure}
    (h : first s = .error e) : (first >>= second) s = .error e := by
  show (first s >>= fun p => second p.1 p.2) = _
  rw [h]
  rfl

/-- What is behind code that throws does not matter. -/
theorem Mismatches.bind {first : Unpack β} {a : Text} (h : Mismatches first a)
    (second : β → Unpack γ) : Mismatches (first >>= second) a := by
  intro s r hs hrest
  obtain ⟨name, hname⟩ := h s r hs hrest
  exact ⟨name, bind_of_error hname⟩

/-- The code in front takes its bytes. -/
theorem Mismatches.behind {first : Unpack β} {second : β → Unpack γ} {a b : Text} {x : β}
    (hfirst : Takes first a x) (hsecond : Mismatches (second x) b) :
    Mismatches (first >>= second) (a ++ b) := by
  intro s r hs hrest
  rw [List.append_assoc] at hrest
  obtain ⟨name, hname⟩ := hsecond _ r (hs.skip hrest) (Datastream.rest_skip_append hrest)
  exact ⟨name, (bind_of_ok (hfirst s _ hs hrest)).trans hname⟩

section Breaks

variable {io : Varints} {unpackField : UInt32 → UInt32 → β → Unpack (β × Bool)}

/-- The bytes behind do not matter. -/
theorem Breaks.append {a : Text} {x : β} (h : Breaks io unpackField a x) (b : Text) :
    Breaks io unpackField (a ++ b) x := by
  intro s r hs hrest
  rw [List.append_assoc] at hrest
  obtain ⟨k, name, hk, hbreaks⟩ := h s _ hs hrest
  exact ⟨k, name, by rw [List.length_append]; omega, hbreaks⟩

/-- The turns in front come to an end. -/
theorem Breaks.behind {a b : Text} {x y : β} (hturns : Turns io unpackField a x y)
    (h : Breaks io unpackField b y) : Breaks io unpackField (a ++ b) x := by
  intro s r hs hrest
  rw [List.append_assoc] at hrest
  obtain ⟨k, hk, hloop⟩ := hturns s _ hs hrest
  obtain ⟨l, name, hl, hbreaks⟩ := h _ r (hs.skip hrest) (Datastream.rest_skip_append hrest)
  refine ⟨l + k, name, by rw [List.length_append]; omega, fun fuel => ?_⟩
  rw [← Nat.add_assoc, hloop, hbreaks]

/-- An entry whose payload is not read. -/
theorem Breaks.entry {key : UInt32} {type : WireType} {bytes : Text} {x : β}
    (h : Mismatches (unpackField (tag key type >>> 3) (tag key type &&& 7) x) bytes) :
    Breaks io unpackField (entry io key type bytes) x := by
  intro s r hs hrest
  have hpos := unsigned_pos io (tag key type)
  rw [ProtocolBuffer.entry, List.append_assoc] at hrest
  obtain ⟨name, hname⟩ := h _ r (hs.skip hrest) (Datastream.rest_skip_append hrest)
  refine ⟨1, name, by rw [ProtocolBuffer.entry, List.length_append]; omega, fun fuel => ?_⟩
  rw [loop_tag hs hrest, bind_of_error hname]

end Breaks

/-- A scalar has another wire type than a string or a message. -/
theorem wire_type_scalar {t : Element α} (h : ¬ Repeatable t) :
    (wireType t).value ≠ WireType.lengthDelimited.value := by
  cases t with
  | fundamental t =>
      show (getWireType t.size).value ≠ _
      rcases t.sized with hsize | hsize | hsize | hsize <;> rw [hsize] <;> decide
  | unsignedInt => decide
  | signedInt => decide
  | string => exact absurd trivial h
  | message m => exact absurd trivial h

/-- The element of a container of scalars is refused. -/
theorem back_mismatches (io : Varints) {t : Element α} (h : ¬ Repeatable t) (name : Text)
    (key : UInt32) (front : List α) (bytes : Text) :
    Mismatches (unpackBack io t name key key (wireType t).value front) bytes := by
  have hcheck : ∀ s, checkKey name key key (wireType t).value .lengthDelimited s =
      .error (.threw (.keyTypeMismatch name)) := by
    intro s
    rw [checkKey, if_pos (Or.inr (wire_type_scalar h))]
    rfl
  intro s r _ _
  refine ⟨name, ?_⟩
  cases t with
  | fundamental t => exact bind_of_error (hcheck s)
  | unsignedInt => exact bind_of_error (hcheck s)
  | signedInt => exact bind_of_error (hcheck s)
  | string => exact absurd trivial h
  | message m => exact absurd trivial h

/-- A nested message that is not read back. -/
theorem sized_mismatches (io : Varints) (name : Text) {body : Unpack (β × Bool)} {bytes : Text}
    (h : bytes.length < 2 ^ 32) {other : Text}
    (hbody : body (.new bytes) = .error (.threw (.keyTypeMismatch other))) :
    Mismatches (unpackSized io name body) (delimited io bytes) := by
  have hsize := to_nat_size h
  refine Mismatches.behind (takes_extract (io.reads_unsigned _)) ?_
  intro s r hs hrest
  have hle : UInt32.ofNat bytes.length ≤ UInt32.ofNat s.rest.length := by
    rw [UInt32.le_iff_toNat_le, to_nat_rest hs, hsize, hrest, List.length_append]
    omega
  refine ⟨other, ?_⟩
  rw [bind_of_ok (remaining_eq hs), if_pos hle]
  exact bind_of_error (nested_of_error hs hrest hsize hbody)

/-- The first element of a container that is not read back ends the loop, where the ones in front
of it are read back. -/
theorem breaks_container {io : Varints} {t : Element α} {key : UInt32} (hkey : key.toNat < 2 ^ 29)
    {visit : UInt32 → UInt32 → β → Unpack (β × Bool)} {put : List α → β} {values : List α}
    {good : α → Prop}
    (hgood : ∀ value ∈ values, good value → ∀ front, Takes
      (visit key (wireType t).value (put front)) (payload io t value)
        (put (front ++ [value]), false))
    (hbad : ∀ value ∈ values, ¬ good value → ∀ front,
      Mismatches (visit key (wireType t).value (put front)) (payload io t value))
    (h : ¬ ∀ value ∈ values, good value) (front : List α) :
    Breaks io visit (values.flatMap fun value => entry io key (wireType t) (payload io t value))
      (put front) := by
  induction values generalizing front with
  | nil => exact absurd (fun _ hmem => absurd hmem List.not_mem_nil) h
  | cons value values ih =>
      rw [List.flatMap_cons]
      by_cases hvalue : good value
      · have hrest : ¬ ∀ x ∈ values, good x := by
          intro hall
          refine h fun x hx => ?_
          rcases List.mem_cons.mp hx with rfl | hx
          · exact hvalue
          · exact hall x hx
        have hfirst : Turns io visit (entry io key (wireType t) (payload io t value)) (put front)
            (put (front ++ [value])) := by
          apply Turns.entry
          rw [tag_key hkey, tag_type hkey]
          exact hgood value List.mem_cons_self hvalue front
        refine Breaks.behind hfirst (ih ?_ ?_ hrest _)
        · exact fun x hx => hgood x (List.mem_cons_of_mem _ hx)
        · exact fun x hx => hbad x (List.mem_cons_of_mem _ hx)
      · refine Breaks.append (Breaks.entry ?_) _
        rw [tag_key hkey, tag_type hkey]
        exact hbad value List.mem_cons_self hvalue front

/-- An exception in the loop of a message leaves it. -/
theorem message_of_error {io : Varints} {S : Type} {ts : List Type} {few : ts.length ≤ 2 ^ 29}
    {fields : Fields ts} {members : S ≃ Values ts} {bytes : Text} {fill : Byte} {e : Failure}
    (h : unpackLoop io (fun field type values => unpackFields io fields 0 field type values)
      (bytes.length + 2) (constructFields fill fields) (.new bytes) = .error e) :
    unpackMessage io (.reflect few fields members)
      (constructMessage fill (.reflect few fields members)) (.new bytes) = .error e := by
  simp only [unpackMessage, constructMessage, Equiv.apply_symm_apply]
  rw [bind_of_ok (show turns (.new bytes) = .ok (bytes.length + 2, .new bytes) from rfl)]
  exact bind_of_error h

/-- The loop of a message that is ended by such an exception. -/
theorem message_of_breaks {io : Varints} {S : Type} {ts : List Type} {few : ts.length ≤ 2 ^ 29}
    {fields : Fields ts} {members : S ≃ Values ts} {bytes : Text} {fill : Byte}
    (hsize : bytes.length < 2 ^ 32)
    (hbreaks : Breaks io (fun field type values => unpackFields io fields 0 field type values) bytes
      (constructFields fill fields)) :
    ∃ name, unpackMessage io (.reflect few fields members)
      (constructMessage fill (.reflect few fields members)) (.new bytes) =
        .error (.threw (.keyTypeMismatch name)) := by
  obtain ⟨k, name, hk, hloop⟩ := hbreaks (.new bytes) [] (inside_new hsize)
    (List.append_nil bytes).symm
  have hfuel : bytes.length + 2 = bytes.length + 2 - k + k := by omega
  refine ⟨name, message_of_error ?_⟩
  rw [hfuel]
  exact hloop _

mutual
/-- A nested message that is not readable is not read back. -/
theorem payload_mismatches (io : Varints) {α : Type} (t : Element α) (value : α)
    (hset : ElementSet t value) (hread : ¬ ElementReadable t value)
    (hsize : (payload io t value).length < 2 ^ 32) (name : Text) (key : UInt32) (fill : Byte) :
    Mismatches (unpackElement io t name key key (wireType t).value (construct fill t))
      (payload io t value) := by
  match t, value with
  | .message m, value =>
      obtain ⟨other, hother⟩ := message_mismatches io m value hset hread (delimited_lt hsize) fill
      simp only [unpackElement, wireType, check_key_same, pure_bind]
      exact (sized_mismatches io name (delimited_lt hsize) hother).bind _
  | .fundamental t, value => exact absurd trivial hread
  | .unsignedInt, value => exact absurd trivial hread
  | .signedInt, value => exact absurd trivial hread
  | .string, value => exact absurd trivial hread

/-- Nor is an element of a container. -/
theorem element_mismatches (io : Varints) {α : Type} (t : Element α) (value : α)
    (hset : ElementSet t value) (hread : ¬ ElementReadable t value)
    (hsize : (payload io t value).length < 2 ^ 32) (name : Text) (key : UInt32) :
    ∀ front : List α, Mismatches (unpackBack io t name key key (wireType t).value front)
      (payload io t value) := by
  intro front
  match t, value, front with
  | .message m, value, front =>
      obtain ⟨other, hother⟩ := message_mismatches io m value hset hread (delimited_lt hsize) 0
      simp only [unpackBack, wireType, check_key_same, pure_bind]
      exact (sized_mismatches io name (delimited_lt hsize) hother).bind _
  | .fundamental t, value, front => exact absurd trivial hread
  | .unsignedInt, value, front => exact absurd trivial hread
  | .signedInt, value, front => exact absurd trivial hread
  | .string, value, front => exact absurd trivial hread

/-- The entries of a field that is not readable end the loop. -/
theorem member_breaks (io : Varints) {α : Type} (f : Field α) (value : α) (hset : MemberSet f value)
    (hread : ¬ MemberReadable f value) (key : UInt32)
    (hsize : (encodeMember io f key value).length < 2 ^ 32) (hkey : key.toNat < 2 ^ 29)
    (name : Text) (fill : Byte) {β : Type} (visit : UInt32 → UInt32 → β → Unpack (β × Bool)) :
    ∀ put : α → β, (∀ type x, visit key type (put x) =
      within put (unpackMember io f name key key type x)) →
    Breaks io visit (encodeMember io f key value) (put (constructMember fill f)) := by
  match f, value with
  | .plain t, value =>
      intro put hput
      have hbad := payload_mismatches io t value hset hread (entry_lt hsize) name key fill
      apply Breaks.entry
      rw [tag_key hkey, tag_type hkey, hput]
      exact hbad.bind _
  | .optional t, none => exact absurd trivial hread
  | .optional t, some value =>
      intro put hput
      have hbad := payload_mismatches io t value hset hread (entry_lt hsize) name key 0
      apply Breaks.entry
      rw [tag_key hkey, tag_type hkey, hput]
      exact (hbad.bind _).bind _
  | .required t, none => exact absurd hset id
  | .required t, some value =>
      intro put hput
      have hbad := payload_mismatches io t value hset hread (entry_lt hsize) name key 0
      apply Breaks.entry
      rw [tag_key hkey, tag_type hkey, hput]
      exact (hbad.bind _).bind _
  | .container t, values =>
      intro put hput
      by_cases hrepeatable : Repeatable t
      · have hbad : ¬ ∀ value ∈ values, ElementReadable t value :=
          fun hall => hread ⟨Or.inl hrepeatable, hall⟩
        refine breaks_container hkey (fun value hvalue hgood front => ?_)
          (fun value hvalue hgood front => ?_) hbad []
        · rw [hput]
          exact (takes_back io t value (hset value hvalue) hrepeatable hgood
            (element_lt hvalue hsize) name key front).within put
        · rw [hput]
          exact (element_mismatches io t value (hset value hvalue) hgood (element_lt hvalue hsize)
            name key front).bind _
      · cases values with
        | nil => exact absurd ⟨Or.inr rfl, fun _ hmem => absurd hmem List.not_mem_nil⟩ hread
        | cons value values =>
            -- the first element has another wire type
            rw [encodeMember, List.flatMap_cons]
            refine Breaks.append (Breaks.entry ?_) _
            rw [tag_key hkey, tag_type hkey, hput]
            exact (back_mismatches io hrepeatable name key [] _).bind _

/-- The entries of some fields end the loop where one of these is not readable. -/
theorem fields_break (io : Varints) {ts : List Type} (fs : Fields ts) (values : Values ts)
    (hset : FieldsSet fs values) (hread : ¬ FieldsReadable fs values) (i : Nat)
    (hsize : (encodeFields io fs i values).length < 2 ^ 32) (hfew : i + ts.length ≤ 2 ^ 29)
    (fill : Byte) {β : Type} (visit : UInt32 → UInt32 → β → Unpack (β × Bool)) :
    ∀ put : Values ts → β, Visits io fs i visit put →
    Breaks io visit (encodeFields io fs i values) (put (constructFields fill fs)) := by
  match fs, values with
  | .nil, _ => exact absurd trivial hread
  | .cons name f fs, (value, values) =>
      intro put hput
      simp only [encodeFields, List.length_append] at hsize ⊢
      rw [List.length_cons] at hfew
      have hkey := to_nat_key (show i < 2 ^ 29 by omega)
      have hvisits := hput.first (by omega) (constructFields fill fs)
      by_cases hvalue : MemberReadable f value
      · have hfirst := turns_member io f value hset.1 hvalue (UInt32.ofNat i) (by omega) (by omega)
          name fill visit (fun x => put (x, constructFields fill fs)) hvisits
        refine Breaks.behind hfirst ?_
        exact fields_break io fs values hset.2 (fun hvalues => hread ⟨hvalue, hvalues⟩) (i + 1)
          (by omega) (by omega) fill visit (fun xs => put (value, xs)) (hput.rest value)
      · refine Breaks.append ?_ _
        exact member_breaks io f value hset.1 hvalue (UInt32.ofNat i) (by omega) (by omega) name
          fill
          visit (fun x => put (x, constructFields fill fs)) hvisits

/-- A message that is not readable is not read back. -/
theorem message_mismatches (io : Varints) {S : Type} (m : Message S) (value : S)
    (hset : MessageSet m value) (hread : ¬ MessageReadable m value)
    (hsize : (encodeMessage io m value).length < 2 ^ 32) (fill : Byte) :
    ∃ name, unpackMessage io m (constructMessage fill m) (.new (encodeMessage io m value)) =
      .error (.threw (.keyTypeMismatch name)) := by
  match m, value with
  | .reflect few fields members, value =>
      have hbreaks := fields_break io fields (members value) hset hread 0 hsize (by omega) fill
        (fun field type values => unpackFields io fields 0 field type values)
        (fun values => values) (visits_self io fields)
      exact message_of_breaks hsize hbreaks
end

end BoostRpc.ProtocolBuffer
