import BoostRpc.ProtocolBuffer.Damage

/-!
# Truncated encodings

The encoding of a message is a row of whole entries: `entries_whole`. A beginning of it that ends
inside an entry is some whole entries and a torn one, and `truncated_visible_iff` tells from the
place where it is torn whether the caller sees an exception.
-/

namespace BoostRpc.ProtocolBuffer

open Raw

variable {β : Type}

/-! ## Prefixes -/

section Prefixes

variable {α : Type}

/-- A strict prefix of two lists in a row ends in the first one or in the second one. -/
theorem strict_prefix_append {a b p : List α} (h : p <+: a ++ b) (hne : p ≠ a ++ b) :
    (p <+: a ∧ p ≠ a) ∨ ∃ q, p = a ++ q ∧ q <+: b ∧ q ≠ b := by
  by_cases hp : p <+: a ∧ p ≠ a
  · exact .inl hp
  · have ha : a <+: p := by
      rcases List.prefix_or_prefix_of_prefix h (List.prefix_append a b) with hpa | hap
      · by_cases heq : p = a
        · exact heq ▸ List.prefix_refl _
        · exact absurd ⟨hpa, heq⟩ hp
      · exact hap
    obtain ⟨q, rfl⟩ := ha
    refine .inr ⟨q, rfl, (List.prefix_append_right_inj a).mp h, ?_⟩
    intro hq
    exact hne (congrArg (a ++ ·) hq)

/-- A prefix of lists in a row that does not end between two of them ends in one. -/
theorem prefix_flatten {es : List (List α)} {p : List α} (h : p <+: es.flatten)
    (hinside : ∀ k, p ≠ (es.take k).flatten) :
    ∃ front e back q, es = front ++ e :: back ∧ p = front.flatten ++ q ∧ q <+: e ∧ q ≠ [] ∧
      q ≠ e := by
  induction es generalizing p with
  | nil => exact absurd (List.prefix_nil.mp h) (hinside 0)
  | cons e es ih =>
      rw [List.flatten_cons] at h
      have hne : p ≠ e ++ es.flatten := by
        have hall := hinside (es.length + 1)
        rwa [List.take_succ_cons, List.take_length, List.flatten_cons] at hall
      rcases strict_prefix_append h hne with ⟨hstart, hpe⟩ | ⟨q, rfl, hq, -⟩
      · exact ⟨[], e, es, p, rfl, rfl, hstart, hinside 0, hpe⟩
      · have hrest : ∀ k, q ≠ (es.take k).flatten := by
          intro k hk
          refine hinside (k + 1) ?_
          rw [List.take_succ_cons, List.flatten_cons, ← hk]
        obtain ⟨front, e', back, r, rfl, rfl, hr, hnil, hre⟩ := ih hq hrest
        refine ⟨e :: front, e', back, r, rfl, ?_, hr, hnil, hre⟩
        rw [List.flatten_cons, List.append_assoc]

end Prefixes

/-- A number that breaks off is cut. -/
theorem cut_of_prefix {reader : Reader β} {part number : Text} {x : β}
    (h : StartsOrEnds reader part) (hnumber : IsNumber reader number x) (hpart : part <+: number)
    (hne : part ≠ number) : ∃ y past, Cut reader part y past := by
  rcases h with ⟨front, y, rest, rfl, hfront⟩ | hcut
  · obtain ⟨back, rfl⟩ := hpart
    -- the reader would take the shorter one off the front of the longer one
    have hlong := hnumber.2 (.new (front ++ rest ++ back)) [] (List.append_nil _).symm
    have hshort := hfront.2 (.new (front ++ rest ++ back)) (rest ++ back) (List.append_assoc _ _ _)
    have hpos := congrArg (fun p => p.2.pos) (Except.ok.inj (hlong.symm.trans hshort))
    simp only [Datastream.skip, Datastream.new, List.length_append] at hpos
    have hrest : rest = [] := List.eq_nil_of_length_eq_zero (by omega)
    have hback : back = [] := List.eq_nil_of_length_eq_zero (by omega)
    rw [hrest, hback, List.append_nil] at hne
    exact absurd (List.append_nil _).symm hne
  · exact hcut

/-! ## Encodings are whole -/

/-- What is written as a number is one. -/
theorem is_number_written {reader : Reader β} {write : β → Text}
    (h : ∀ n, Reads reader (write n) n) {n n' : β} (hne : n ≠ n') :
    IsNumber reader (write n) n := by
  refine ⟨?_, h n⟩
  intro hempty
  -- without a byte it would be read in front of any other number
  have hread := h n (.new (write n')) (write n') (by rw [hempty]; rfl)
  have hread' := h n' (.new (write n')) [] (List.append_nil _).symm
  exact hne (congrArg Prod.fst (Except.ok.inj (hread.symm.trans hread')))

theorem is_number_unsigned (io : Varints) (n : UInt32) :
    IsNumber io.getUnsigned (io.unsigned n) n :=
  is_number_written io.reads_unsigned (show n ≠ n + 1 by simp)

theorem is_number_signed (io : Varints) (n : Int32) : IsNumber io.getSigned (io.signed n) n :=
  is_number_written io.reads_signed (show n ≠ n + 1 by simp)

theorem shape_wire_type {α : Type} (t : Element α) : t.shape.wireType = wireType t := by
  cases t <;> rfl

/-- The elements of a container that is read back are those of their type. -/
theorem shape_repeated {α : Type} {t : Element α} (h : Repeatable t) :
    t.shape.repeated = t.shape := by
  cases t with
  | string => rfl
  | message m => rfl
  | fundamental t => exact absurd h id
  | unsignedInt => exact absurd h id
  | signedInt => exact absurd h id

/-- An entry of one of these fields, as it should be. -/
def WholeEntry (io : Varints) (fields : List Shape) (bytes : Text) : Prop :=
  ∃ tag k n payload, bytes = tag ++ payload ∧ IsTag io fields tag k n ∧ Whole io k payload

theorem all_whole_of_entries {io : Varints} {fields : List Shape} {es : List Text}
    (h : ∀ e ∈ es, WholeEntry io fields e) : AllWhole io fields es.flatten := by
  induction es with
  | nil => exact .nil fields
  | cons e es ih =>
      obtain ⟨he, hes⟩ := List.forall_mem_cons.mp h
      obtain ⟨tag, k, n, payload, rfl, htag, hpayload⟩ := he
      rw [List.flatten_cons, List.append_assoc]
      exact .cons fields tag k n payload _ htag hpayload (ih hes)

/-- The entries of a field hold payloads of its shape. -/
def HoldsPayloads (io : Varints) (k : Shape) (key : UInt32) (es : List Text) : Prop :=
  ∀ e ∈ es, ∃ bytes, e = entry io key k.wireType bytes ∧ Whole io k bytes

theorem holds_entry {io : Varints} {α : Type} {t : Element α} (key : UInt32) {bytes : Text}
    (h : Whole io t.shape bytes) :
    HoldsPayloads io t.shape key [entry io key (wireType t) bytes] := by
  intro e he
  obtain rfl := List.mem_singleton.mp he
  exact ⟨bytes, by rw [shape_wire_type], h⟩

/-- The entry of a field is one of the message. -/
theorem whole_entry {io : Varints} {fields : List Shape} (hfew : fields.length ≤ 2 ^ 29) {i : Nat}
    {k : Shape} (hk : fields[i]? = some k) {bytes : Text} (h : Whole io k bytes) :
    WholeEntry io fields (entry io (UInt32.ofNat i) k.wireType bytes) := by
  have hi : i < 2 ^ 29 := Nat.lt_of_lt_of_le (List.getElem?_eq_some_iff.mp hk).1 hfew
  have hkey : (UInt32.ofNat i).toNat < 2 ^ 29 := by rw [to_nat_key hi]; exact hi
  refine ⟨_, k, tag (UInt32.ofNat i) k.wireType, bytes, rfl, ⟨is_number_unsigned io _, ?_, ?_⟩, h⟩
  · rw [shapeAt, tag_key hkey, to_nat_key hi]
    exact hk
  · exact tag_type hkey k.wireType

mutual
/-- The payload of an entry that is read back. -/
theorem payload_whole (io : Varints) {α : Type} (t : Element α) (value : α)
    (hread : ElementReadable t value) (hsize : (payload io t value).length < 2 ^ 32) :
    Whole io t.shape (payload io t value) := by
  match t, value with
  | .fundamental t, value => exact .fixed t.size _ (t.toBytes value).toList_length
  | .unsignedInt, value => exact .unsigned _ value (is_number_unsigned io value)
  | .signedInt, value => exact .signed _ value (is_number_signed io value)
  | .string, value =>
      exact .chars _ _ value (is_number_unsigned io _) (to_nat_size (delimited_lt hsize))
  | .message m, value =>
      have hentries := all_whole_of_entries
        (entries_whole io m value hread (delimited_lt hsize))
      rw [entries_flatten] at hentries
      exact .message m.shapes _ _ _ (is_number_unsigned io _) (to_nat_size (delimited_lt hsize))
        hentries

theorem member_whole (io : Varints) {α : Type} (f : Field α) (key : UInt32) (value : α)
    (hread : MemberReadable f value) (hsize : (encodeMember io f key value).length < 2 ^ 32) :
    HoldsPayloads io f.shape key (entriesMember io f key value) := by
  match f, value with
  | .plain t, value => exact holds_entry key (payload_whole io t value hread (entry_lt hsize))
  | .optional t, none => exact fun e he => absurd he List.not_mem_nil
  | .optional t, some value =>
      exact holds_entry key (payload_whole io t value hread (entry_lt hsize))
  | .required t, none => exact fun e he => absurd he List.not_mem_nil
  | .required t, some value =>
      exact holds_entry key (payload_whole io t value hread (entry_lt hsize))
  | .container t, values =>
      intro e he
      obtain ⟨value, hvalue, rfl⟩ := List.mem_map.mp he
      have hshape : (Field.container t).shape = t.shape :=
        shape_repeated (hread.1.resolve_right (List.ne_nil_of_mem hvalue))
      rw [hshape, shape_wire_type]
      exact ⟨_, rfl, payload_whole io t value (hread.2 value hvalue) (element_lt hvalue hsize)⟩

/-- The entries of the last fields of a message. -/
theorem fields_whole (io : Varints) {ts : List Type} (fs : Fields ts) (values : Values ts)
    (hread : FieldsReadable fs values) (i : Nat)
    (hsize : (encodeFields io fs i values).length < 2 ^ 32) {shapes : List Shape}
    (hfew : shapes.length ≤ 2 ^ 29) (hshapes : shapes.drop i = fs.shapes) :
    ∀ e ∈ entriesFields io fs i values, WholeEntry io shapes e := by
  match fs, values with
  | .nil, _ => exact fun e he => absurd he List.not_mem_nil
  | .cons name f fs, (value, values) =>
      intro e he
      rw [encodeFields, List.length_append] at hsize
      have hhead : shapes[i]? = some f.shape := by
        rw [← List.head?_drop, hshapes]
        rfl
      rcases List.mem_append.mp he with he | he
      · obtain ⟨bytes, rfl, hbytes⟩ :=
          member_whole io f (UInt32.ofNat i) value hread.1 (by omega) e he
        exact whole_entry hfew hhead hbytes
      · have htail : shapes.drop (i + 1) = fs.shapes := by
          rw [← List.drop_drop, hshapes]
          rfl
        exact fields_whole io fs values hread.2 (i + 1) (by omega) hfew htail e he

/-- The entries of a message. -/
theorem entries_whole (io : Varints) {S : Type} (m : Message S) (value : S)
    (hread : MessageReadable m value) (hsize : (encodeMessage io m value).length < 2 ^ 32) :
    ∀ e ∈ entries io m value, WholeEntry io m.shapes e := by
  match m, value with
  | .reflect few fields members, value =>
      have hfew : fields.shapes.length ≤ 2 ^ 29 := by rw [shapes_length]; exact few
      exact fields_whole io fields (members value) hread 0 hsize hfew rfl
end

/-! ## Torn entries -/

/-- The bytes are the beginning of an entry, and whether it is reported depends on the place where
they end. -/
inductive Torn (io : Varints) (fields : List Shape) : Text → Prop → Prop where
  | tag (bytes n past) : bytes ≠ [] → Cut io.getUnsigned bytes n past → Torn io fields bytes False
  /-- What is there of a scalar counts as the next fields. -/
  | scalar (tag n size rest) :
      IsTag io fields tag (.fixed size) n → rest.length < size.toNat →
      Torn io fields (tag ++ rest) (∃ flaw ∈ [Flaw.unknownKey, .wrongType, .messageLength],
        FirstFlaw io fields rest (some flaw))
  | unsigned (tag n bytes x past) :
      IsTag io fields tag .unsigned n → Cut io.getUnsigned bytes x past →
      Torn io fields (tag ++ bytes) False
  | signed (tag n bytes x past) :
      IsTag io fields tag .signed n → Cut io.getSigned bytes x past →
      Torn io fields (tag ++ bytes) False
  | stringLength (tag n bytes x past) :
      IsTag io fields tag .chars n → Cut io.getUnsigned bytes x past →
      Torn io fields (tag ++ bytes) False
  | string (tag n size length rest) :
      IsTag io fields tag .chars n → IsNumber io.getUnsigned size length →
      rest.length < length.toNat → Torn io fields (tag ++ (size ++ rest)) False
  | messageLength (tag n inner bytes x past) :
      IsTag io fields tag (.message inner) n → Cut io.getUnsigned bytes x past →
      Torn io fields (tag ++ bytes) (2 ^ 32 < x.toNat + past)
  | message (tag n inner size length rest) :
      IsTag io fields tag (.message inner) n → IsNumber io.getUnsigned size length →
      rest.length < length.toNat → Torn io fields (tag ++ (size ++ rest)) True

variable {io : Varints} (hio : io.Invalidating)

include hio

/-- A payload is torn behind its tag. -/
theorem torn_payload {fields : List Shape} {tag payload part : Text} {k : Shape} {n : UInt32}
    (htag : IsTag io fields tag k n) (h : Whole io k payload) (hpart : part <+: payload)
    (hne : part ≠ payload) : ∃ reported, Torn io fields (tag ++ part) reported := by
  have hlt : part.length < payload.length := by
    refine Nat.lt_of_le_of_ne hpart.length_le ?_
    intro heq
    exact hne (hpart.eq_of_length heq)
  cases h with
  | fixed size bytes hsize => exact ⟨_, .scalar tag n size part htag (hsize ▸ hlt)⟩
  | unsigned bytes x hx =>
      obtain ⟨y, past, hcut⟩ := cut_of_prefix (hio.unsigned part) hx hpart hne
      exact ⟨_, .unsigned tag n part y past htag hcut⟩
  | signed bytes x hx =>
      obtain ⟨y, past, hcut⟩ := cut_of_prefix (hio.signed part) hx hpart hne
      exact ⟨_, .signed tag n part y past htag hcut⟩
  | chars size length content hsize hlength =>
      rcases strict_prefix_append hpart hne with ⟨hstart, hcutoff⟩ | ⟨rest, rfl, hrest, -⟩
      · obtain ⟨y, past, hcut⟩ := cut_of_prefix (hio.unsigned part) hsize hstart hcutoff
        exact ⟨_, .stringLength tag n part y past htag hcut⟩
      · rw [List.length_append, List.length_append] at hlt
        exact ⟨_, .string tag n size length rest htag hsize (by omega)⟩
  | message inner size length content hsize hlength _ =>
      rcases strict_prefix_append hpart hne with ⟨hstart, hcutoff⟩ | ⟨rest, rfl, hrest, -⟩
      · obtain ⟨y, past, hcut⟩ := cut_of_prefix (hio.unsigned part) hsize hstart hcutoff
        exact ⟨_, .messageLength tag n inner part y past htag hcut⟩
      · rw [List.length_append, List.length_append] at hlt
        exact ⟨_, .message tag n inner size length rest htag hsize (by omega)⟩

variable {S : Type} {m : Message S} {front bytes msg : Text} {reported : Prop}

/-- Behind whole entries it depends on the torn one whether the caller sees an exception. -/
theorem torn_visible_iff (hfront : AllWhole io m.shapes front)
    (htorn : Torn io m.shapes bytes reported) (hseen : seen msg = front ++ bytes) (v : S) :
    Visible (unpackArray io m msg v) ↔ reported := by
  have hvisible : ∀ {flaw}, FirstFlaw io m.shapes bytes flaw →
      (Visible (unpackArray io m msg v) ↔ ∃ f ∈ flaw, f.thrown = true) := by
    intro flaw hflaw
    refine first_flaw_visible_iff hio ?_ v
    rw [hseen]
    exact hfront.first_flaw hflaw
  cases htorn with
  | tag _ n past hne hcut =>
      rw [hvisible (.cut _ bytes n past hne hcut)]
      exact iff_of_false (not_thrown rfl) id
  | scalar tag n size rest htag hshort =>
      have hpassed : ∀ {flaw}, FirstFlaw io m.shapes rest flaw →
          (Visible (unpackArray io m msg v) ↔ ∃ f ∈ flaw, f.thrown = true) := by
        intro flaw hflaw
        exact hvisible (.passed _ tag n _ rest rest flaw htag (.short size rest hshort) hflaw)
      constructor
      · intro h
        obtain ⟨flaw, hflaw⟩ := exists_first_flaw hio m.shapes rest
        obtain ⟨f, rfl, hthrown⟩ := (hpassed hflaw).mp h
        exact ⟨f, (thrown_iff f).mp hthrown, hflaw⟩
      · intro h
        obtain ⟨flaw, hmem, hflaw⟩ := h
        exact (hpassed hflaw).mpr ⟨flaw, rfl, (thrown_iff flaw).mpr hmem⟩
  | unsigned tag n bytes x past htag hcut =>
      rw [hvisible (.stopped _ tag n _ bytes .cut htag (.unsignedCut bytes x past hcut))]
      exact iff_of_false (not_thrown rfl) id
  | signed tag n bytes x past htag hcut =>
      rw [hvisible (.stopped _ tag n _ bytes .cut htag (.signedCut bytes x past hcut))]
      exact iff_of_false (not_thrown rfl) id
  | stringLength tag n bytes x past htag hcut =>
      rw [hvisible (.stopped _ tag n _ bytes .cut htag (.charsCut bytes x past hcut))]
      exact iff_of_false (not_thrown rfl) id
  | string tag n size length rest htag hsize hlength =>
      rw [hvisible (.stopped _ tag n _ _ .stringLength htag
        (.charsBeyond size length rest hsize hlength))]
      exact iff_of_false (not_thrown rfl) id
  | messageLength tag n inner bytes x past htag hcut =>
      by_cases hwraps : 2 ^ 32 < x.toNat + past
      · rw [hvisible (.stopped _ tag n _ bytes .messageLength htag
          (.messageCutBeyond inner bytes x past hcut hwraps))]
        exact iff_of_true ⟨_, rfl, rfl⟩ hwraps
      · rw [hvisible (.stopped _ tag n _ bytes .cut htag
          (.messageCut inner bytes x past hcut (by omega)))]
        exact iff_of_false (not_thrown rfl) hwraps
  | message tag n inner size length rest htag hsize hlength =>
      rw [hvisible (.stopped _ tag n _ _ .messageLength htag
        (.messageBeyond inner size length rest hsize hlength))]
      exact iff_of_true ⟨_, rfl, rfl⟩ trivial

/-- A truncated encoding is some whole entries and a torn one. -/
theorem truncated_torn {v : S} (h : Truncated io m v bytes) (hread : MessageReadable m v)
    (hsize : (encodeMessage io m v).length < 2 ^ 32) :
    ∃ front torn reported, bytes = front ++ torn ∧ AllWhole io m.shapes front ∧
      Torn io m.shapes torn reported := by
  have hstarts := h.starts
  rw [← entries_flatten] at hstarts
  obtain ⟨es, e, back, part, hentries, rfl, hpart, hnil, hne⟩ := prefix_flatten hstarts h.inside
  have hwhole := entries_whole io m v hread hsize
  rw [hentries] at hwhole
  have hfront : AllWhole io m.shapes es.flatten :=
    all_whole_of_entries fun e he => hwhole e (List.mem_append_left _ he)
  obtain ⟨tag, k, n, payload, rfl, htag, hpayload⟩ :=
    hwhole e (List.mem_append_right _ List.mem_cons_self)
  rcases strict_prefix_append hpart hne with ⟨hstart, hcutoff⟩ | ⟨rest, rfl, hrest, hshort⟩
  · obtain ⟨y, past, hcut⟩ := cut_of_prefix (hio.unsigned part) htag.number hstart hcutoff
    exact ⟨_, part, _, rfl, hfront, .tag part y past hnil hcut⟩
  · obtain ⟨reported, htorn⟩ := torn_payload hio htag hpayload hrest hshort
    exact ⟨_, _, reported, rfl, hfront, htorn⟩

/-- Where a truncated encoding is torn tells whether the caller sees an exception. -/
theorem truncated_visible_iff {v : S} (h : Truncated io m v bytes) (hread : MessageReadable m v)
    (hsize : (encodeMessage io m v).length < 2 ^ 32) :
    ∃ front torn reported, bytes = front ++ torn ∧ AllWhole io m.shapes front ∧
      Torn io m.shapes torn reported ∧
      ∀ target, Visible (unpackArray io m bytes target) ↔ reported := by
  obtain ⟨front, torn, reported, hbytes, hfront, htorn⟩ := truncated_torn hio h hread hsize
  have hseen : seen bytes = front ++ torn := by
    rw [seen_small (Nat.lt_of_le_of_lt h.starts.length_le hsize), hbytes]
  exact ⟨front, torn, reported, hbytes, hfront, htorn, torn_visible_iff hio hfront htorn hseen⟩

omit hio in
/-- A string of two characters without the second one. -/
theorem truncated_visible_note :
    ∃ front torn reported, ([2, 2, 97] : Text) = front ++ torn ∧
      AllWhole .checked note.shapes front ∧ Torn .checked note.shapes torn reported ∧
      ∀ target, Visible (unpackArray .checked note [2, 2, 97] target) ↔ reported := by
  have hentries : entries .checked note ([97, 98], ()) = [[2, 2, 97, 98]] := by
    simp [note, entries, entriesFields, entriesMember, entry, payload, delimited, wireType,
      Varints.checked, tag, WireType.value, Base128.code_small]
  have hencoded : encodeMessage .checked note ([97, 98], ()) = [2, 2, 97, 98] := by
    rw [← entries_flatten, hentries]
    rfl
  have hinside : ∀ k, ([2, 2, 97] : Text) ≠
      ((entries .checked note ([97, 98], ())).take k).flatten := by
    intro k
    rw [hentries]
    cases k with
    | zero => exact List.cons_ne_nil _ _
    | succ k =>
        rw [List.take_succ_cons, List.take_nil]
        decide
  refine truncated_visible_iff checked_invalidating
    ⟨⟨trivial, trivial⟩, ⟨[98], hencoded.symm⟩, hinside⟩ ⟨trivial, trivial⟩ ?_
  rw [hencoded]
  decide

end BoostRpc.ProtocolBuffer
