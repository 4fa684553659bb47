import BoostRpc.ProtocolBuffer.RoundTrip
import BoostRpc.Commuting

/-!
# Merging

The unpacker writes into a target that may hold a value already. An entry of a scalar replaces it,
one of a nested message is merged into it and one of a container adds an element, so a message is a
list of entries that act on the target one after the other.

`concatenation` says what becomes of encodings that are put one behind the other, and `any_order`
that the entries of different fields can come in any order.
-/

namespace BoostRpc.ProtocolBuffer

open Raw Commuting

variable {α β : Type}

/-! ## Entries -/

/-- The type of the entries of a field. -/
@[reducible] def Item : {α : Type} → Field α → Type
  | α, .plain _ => α
  | _, @Field.optional α _ => α
  | _, @Field.required α _ => α
  | _, @Field.container α _ => α

/-- How the entries of a field are read. -/
def Field.element : {α : Type} → (f : Field α) → Element (Item f)
  | _, .plain t => t
  | _, .optional t => t
  | _, .required t => t
  | _, .container t => t

/-- The entries of the value of a field. -/
def items : {α : Type} → (f : Field α) → α → List (Item f)
  | _, .plain _, value => [value]
  | _, .optional _, value => value.toList
  | _, .required _, value => value.toList
  | _, .container _, values => values

/-- An entry of one of some fields. -/
@[reducible] def Entry : {ts : List Type} → Fields ts → Type
  | _, .nil => Empty
  | _, .cons _ f fs => Item f ⊕ Entry fs

/-- The number of the field of an entry. -/
def number : {ts : List Type} → (fs : Fields ts) → Entry fs → Nat
  | _, .cons _ _ fs, e =>
      match e with
      | .inl _ => 0
      | .inr e => number fs e + 1

/-- The entries of the values of some fields, in the order in which they are packed. -/
def fieldEntries : {ts : List Type} → (fs : Fields ts) → Values ts → List (Entry fs)
  | _, .nil, _ => []
  | _, .cons _ f fs, (value, values) =>
      (items f value).map Sum.inl ++ (fieldEntries fs values).map Sum.inr

/-- The encoding of an entry, where the fields begin at a number. -/
def encodeEntry (io : Varints) : {ts : List Type} → (fs : Fields ts) → Nat → Entry fs → Text
  | _, .cons _ f fs, i, e =>
      match e with
      | .inl item => entry io (UInt32.ofNat i) (wireType f.element) (payload io f.element item)
      | .inr e => encodeEntry io fs (i + 1) e

/-! ## Merging -/

mutual
/-- What an entry makes of a value. -/
def mergeElement : {α : Type} → Element α → α → α → α
  | _, .message m, x, value => mergeMessage m x value
  | _, .fundamental _, _, value => value
  | _, .unsignedInt, _, value => value
  | _, .signedInt, _, value => value
  | _, .string, _, value => value

/-- What an entry makes of the value of its field. -/
def mergeItem : {α : Type} → (f : Field α) → α → Item f → α
  | _, .plain t, x, value => mergeElement t x value
  | _, .optional t, x, value => some (mergeElement t (x.getD (construct 0 t)) value)
  | _, .required t, x, value => some (mergeElement t (x.getD (construct 0 t)) value)
  | _, .container _, xs, value => xs ++ [value]

/-- What the entries of some values make of others. -/
def mergeFields : {ts : List Type} → Fields ts → Values ts → Values ts → Values ts
  | _, .nil, _, _ => ()
  | _, .cons _ f fs, (x, xs), (value, values) =>
      ((items f value).foldl (fun x item => mergeItem f x item) x, mergeFields fs xs values)

/-- What the encoding of a message makes of another one. -/
def mergeMessage : {S : Type} → Message S → S → S → S
  | _, .reflect _ fields members, x, value =>
      members.symm (mergeFields fields (members x) (members value))
end

/-- What an entry makes of the values of some fields. -/
def mergeEntry : {ts : List Type} → (fs : Fields ts) → Values ts → Entry fs → Values ts
  | _, .cons _ f fs, (x, xs), e =>
      match e with
      | .inl item => (mergeItem f x item, xs)
      | .inr e => (x, mergeEntry fs xs e)

/-! ## Messages as entries -/

/-- The encoding of a field is that of its entries. -/
theorem encode_member_items (io : Varints) (f : Field α) (key : UInt32) (value : α) :
    encodeMember io f key value =
      (items f value).flatMap fun item => entry io key (wireType f.element)
        (payload io f.element item) := by
  cases f with
  | plain t => exact (List.append_nil _).symm
  | optional t =>
      cases value with
      | none => rfl
      | some value => exact (List.append_nil _).symm
  | required t =>
      cases value with
      | none => rfl
      | some value => exact (List.append_nil _).symm
  | container t => rfl

/-- The encoding of some fields is that of their entries. -/
theorem encode_fields_entries (io : Varints) {ts : List Type} (fs : Fields ts) (i : Nat)
    (values : Values ts) :
    encodeFields io fs i values = (fieldEntries fs values).flatMap (encodeEntry io fs i) := by
  cases fs with
  | nil => rfl
  | cons name f fs =>
      rw [encodeFields, encode_member_items, encode_fields_entries io fs (i + 1), fieldEntries,
        List.flatMap_append, List.flatMap_map, List.flatMap_map]
      rfl

/-- What the encoding of some fields does, its entries do one after the other. -/
theorem merge_fields_entries {ts : List Type} (fs : Fields ts) (xs values : Values ts) :
    mergeFields fs xs values = (fieldEntries fs values).foldl (mergeEntry fs) xs := by
  match fs, xs, values with
  | .nil, _, _ => rfl
  | .cons name f fs, (x, xs), (value, values) =>
      have hfirst : ∀ (l : List (Item f)) x (xs : Values _),
          (l.map Sum.inl).foldl (mergeEntry (.cons name f fs)) (x, xs) =
            (l.foldl (fun x item => mergeItem f x item) x, xs) := by
        intro l
        induction l with
        | nil => exact fun _ _ => rfl
        | cons item l ih => exact fun x xs => ih (mergeItem f x item) xs
      have hrest : ∀ (l : List (Entry fs)) x (xs : Values _),
          (l.map Sum.inr).foldl (mergeEntry (.cons name f fs)) (x, xs) =
            (x, l.foldl (mergeEntry fs) xs) := by
        intro l
        induction l with
        | nil => exact fun _ _ => rfl
        | cons e l ih => exact fun x xs => ih x (mergeEntry fs xs e)
      rw [mergeFields, fieldEntries, List.foldl_append, hfirst, hrest,
        merge_fields_entries fs xs values]

/-- Entries of different fields commute. -/
theorem commute_by_number {ts : List Type} (fs : Fields ts) :
    CommuteByKey (number fs) (mergeEntry fs) := by
  match fs with
  | .nil => exact fun _ e => e.elim
  | .cons name f fs =>
      have ih := commute_by_number fs
      rintro ⟨x, xs⟩ (item | e) (item' | e') hne
      · exact absurd rfl hne
      · rfl
      · rfl
      · exact congrArg (x, ·) (ih xs e e' fun heq => hne (congrArg (· + 1) heq))

/-- The elements of a container, one after the other. -/
theorem foldl_concat (values front : List α) :
    values.foldl (fun xs value => xs ++ [value]) front = front ++ values := by
  induction values generalizing front with
  | nil => exact (List.append_nil front).symm
  | cons value values ih => rw [List.foldl_cons, ih, List.append_assoc, List.singleton_append]

mutual
/-- Into a default-constructed target every value is merged as it is. -/
theorem merge_construct (fill : Byte) {α : Type} (t : Element α) (value : α) :
    mergeElement t (construct fill t) value = value := by
  match t, value with
  | .fundamental t, value => rfl
  | .unsignedInt, value => rfl
  | .signedInt, value => rfl
  | .string, value => rfl
  | .message m, value => exact merge_construct_message fill m value

theorem merge_construct_member (fill : Byte) {α : Type} (f : Field α) (value : α) :
    (items f value).foldl (fun x item => mergeItem f x item) (constructMember fill f) = value := by
  match f, value with
  | .plain t, value => exact merge_construct fill t value
  | .optional t, none => rfl
  | .optional t, some value => exact congrArg some (merge_construct 0 t value)
  | .required t, none => rfl
  | .required t, some value => exact congrArg some (merge_construct 0 t value)
  | .container t, values =>
      exact foldl_concat values []

theorem merge_construct_fields (fill : Byte) {ts : List Type} (fs : Fields ts)
    (values : Values ts) : mergeFields fs (constructFields fill fs) values = values := by
  match fs, values with
  | .nil, _ => rfl
  | .cons name f fs, (value, values) =>
      have hfirst := merge_construct_member fill f value
      have hrest := merge_construct_fields fill fs values
      exact Prod.ext hfirst hrest

theorem merge_construct_message (fill : Byte) {S : Type} (m : Message S) (value : S) :
    mergeMessage m (constructMessage fill m) value = value := by
  match m, value with
  | .reflect few fields members, value =>
      rw [mergeMessage, constructMessage, Equiv.apply_symm_apply,
        merge_construct_fields fill fields (members value), Equiv.symm_apply_apply]
end

/-! ## Reading entries -/

/-- The required fields of an entry are set, and it is no element of a container of scalars. -/
def ItemSound : {α : Type} → (f : Field α) → Item f → Prop
  | _, .plain t, item => ElementSet t item ∧ ElementReadable t item
  | _, .optional t, item => ElementSet t item ∧ ElementReadable t item
  | _, .required t, item => ElementSet t item ∧ ElementReadable t item
  | _, .container t, item => ElementSet t item ∧ ElementReadable t item ∧ Repeatable t

def EntrySound : {ts : List Type} → (fs : Fields ts) → Entry fs → Prop
  | _, .cons _ f fs, e =>
      match e with
      | .inl item => ItemSound f item
      | .inr e => EntrySound fs e

/-- The entries of a field whose value can be read back. -/
theorem items_sound (f : Field α) {value : α} (hset : MemberSet f value)
    (hread : MemberReadable f value) : ∀ item ∈ items f value, ItemSound f item := by
  match f, value with
  | .plain t, value =>
      intro item hitem
      rw [List.mem_singleton.mp hitem]
      exact ⟨hset, hread⟩
  | .optional t, none => exact List.forall_mem_nil _
  | .optional t, some value =>
      intro item hitem
      rw [List.mem_singleton.mp hitem]
      exact ⟨hset, hread⟩
  | .required t, none => exact absurd hset id
  | .required t, some value =>
      intro item hitem
      rw [List.mem_singleton.mp hitem]
      exact ⟨hset, hread⟩
  | .container t, values =>
      intro item hitem
      exact ⟨hset item hitem, hread.2 item hitem,
        hread.1.resolve_right (List.ne_nil_of_mem hitem)⟩

theorem entries_sound {ts : List Type} (fs : Fields ts) {values : Values ts}
    (hset : FieldsSet fs values) (hread : FieldsReadable fs values) :
    ∀ e ∈ fieldEntries fs values, EntrySound fs e := by
  match fs, values with
  | .nil, _ => exact List.forall_mem_nil _
  | .cons name f fs, (value, values) =>
      intro e he
      rcases List.mem_append.mp he with he | he
      · obtain ⟨item, hitem, rfl⟩ := List.mem_map.mp he
        exact items_sound f hset.1 hread.1 item hitem
      · obtain ⟨e', he', rfl⟩ := List.mem_map.mp he
        exact entries_sound fs hset.2 hread.2 e' he'

/-- Entries in a row are read one after the other. -/
theorem turns_entries {io : Varints} {E : Type} {encode : E → Text}
    {visit : UInt32 → UInt32 → β → Unpack (β × Bool)} {act : α → E → α} (put : α → β) {es : List E}
    (h : ∀ e ∈ es, ∀ x, Turns io visit (encode e) (put x) (put (act x e))) (x : α) :
    Turns io visit (es.flatMap encode) (put x) (put (es.foldl act x)) := by
  induction es generalizing x with
  | nil => exact Turns.nil _
  | cons e es ih =>
      exact (h e List.mem_cons_self x).append
        (ih (fun e he => h e (List.mem_cons_of_mem _ he)) (act x e))

/-- An entry is no longer than all of them. -/
theorem encode_entry_le {io : Varints} {ts : List Type} {fs : Fields ts} {i : Nat} {e : Entry fs}
    {es : List (Entry fs)} (he : e ∈ es) :
    (encodeEntry io fs i e).length ≤ (es.flatMap (encodeEntry io fs i)).length :=
  length_le_flatMap he _

/-- The loop of a message makes of the target what its turns make of it. -/
theorem message_of_turns_over {io : Varints} {S : Type} {ts : List Type}
    {few : ts.length ≤ 2 ^ 29} {fields : Fields ts} {members : S ≃ Values ts} {bytes : Text} {x : S}
    {values : Values ts} (hsize : bytes.length < 2 ^ 32)
    (hturns : Turns io (fun field type values => unpackFields io fields 0 field type values) bytes
      (members x) values) :
    ∃ s', unpackMessage io (.reflect few fields members) x (.new bytes) =
      .ok ((members.symm values, true), s') := by
  have hinside := inside_new hsize
  have hrest : (Datastream.new bytes).rest = bytes ++ [] := (List.append_nil bytes).symm
  obtain ⟨k, hk, hloop⟩ := hturns (.new bytes) [] hinside hrest
  have hfuel : (Datastream.new bytes).rest.length + 2 = bytes.length + 1 - k + 1 + k := by
    show bytes.length + 2 = _
    omega
  have hend := hloop (bytes.length + 1 - k + 1)
  rw [loop_end (hinside.skip hrest) (Datastream.rest_skip_append hrest), ← hfuel] at hend
  refine ⟨(Datastream.new bytes).skip bytes.length, ?_⟩
  rw [unpackMessage, bind_of_ok (show turns (.new bytes) = .ok (_, .new bytes) from rfl),
    bind_of_ok hend]
  rfl

mutual
/-- The payload of an entry is merged into the target. -/
theorem takes_payload_over (io : Varints) {α : Type} (t : Element α) (x value : α)
    (hset : ElementSet t value) (hread : ElementReadable t value)
    (hsize : (payload io t value).length < 2 ^ 32) (name : Text) (key : UInt32) :
    Takes (unpackElement io t name key key (wireType t).value x) (payload io t value)
      (mergeElement t x value, false) := by
  match t, x, value with
  | .fundamental t, x, value =>
      simp only [unpackElement, wireType, check_key_same, pure_bind]
      refine (takes_extract (reads_read t.size_pos (t.toBytes x) (t.toBytes value))).andThen
        (takes_valid.andThen ?_)
      rw [t.of_to]
      exact Takes.pure _
  | .unsignedInt, x, value =>
      simp only [unpackElement, wireType, check_key_same, pure_bind]
      exact (takes_extract (io.reads_unsigned value)).andThen (Takes.pure _)
  | .signedInt, x, value =>
      simp only [unpackElement, wireType, check_key_same, pure_bind]
      exact (takes_extract (io.reads_signed value)).andThen (Takes.pure _)
  | .string, x, value =>
      simp only [unpackElement, wireType, check_key_same, pure_bind]
      exact (takes_chars io (delimited_lt hsize)).andThen (Takes.pure _)
  | .message m, x, value =>
      simp only [unpackElement, wireType, check_key_same, pure_bind]
      obtain ⟨s', hs'⟩ := message_unpacks_over io m x value hset hread (delimited_lt hsize)
      exact (takes_sized io name (delimited_lt hsize) hs').andThen (Takes.pure _)

theorem takes_item (io : Varints) {α : Type} (f : Field α) (x : α) (item : Item f)
    (hsound : ItemSound f item) (hsize : (payload io f.element item).length < 2 ^ 32) (name : Text)
    (key : UInt32) :
    Takes (unpackMember io f name key key (wireType f.element).value x)
      (payload io f.element item) (mergeItem f x item, false) := by
  match f, x, item with
  | .plain t, x, item => exact takes_payload_over io t x item hsound.1 hsound.2 hsize name key
  | .optional t, x, item =>
      have htakes := takes_payload_over io t (x.getD (construct 0 t)) item hsound.1 hsound.2 hsize
        name key
      exact htakes.within some
  | .required t, x, item =>
      have htakes := takes_payload_over io t (x.getD (construct 0 t)) item hsound.1 hsound.2 hsize
        name key
      exact htakes.within some
  | .container t, xs, item =>
      exact takes_back io t item hsound.1 hsound.2.2 hsound.2.1 hsize name key xs

/-- The loop reads an entry of some fields, which are the last ones of what it works on. -/
theorem turns_entry (io : Varints) {ts : List Type} (fs : Fields ts) (e : Entry fs)
    (hsound : EntrySound fs e) (i : Nat) (hsize : (encodeEntry io fs i e).length < 2 ^ 32)
    (hfew : i + ts.length ≤ 2 ^ 29) {β : Type} (visit : UInt32 → UInt32 → β → Unpack (β × Bool)) :
    ∀ put : Values ts → β, Visits io fs i visit put → ∀ xs,
    Turns io visit (encodeEntry io fs i e) (put xs) (put (mergeEntry fs xs e)) := by
  match fs, e with
  | .nil, e => exact e.elim
  | .cons name f fs, e =>
      rintro put hput ⟨x, xs⟩
      rw [List.length_cons] at hfew
      match e with
      | .inl item =>
          have hkey := to_nat_key (show i < 2 ^ 29 by omega)
          have htakes := takes_item io f x item hsound (entry_lt hsize) name (UInt32.ofNat i)
          apply Turns.entry
          rw [tag_key (by omega), tag_type (by omega), hput.first (by omega)]
          exact htakes.within fun x => put (x, xs)
      | .inr e =>
          exact turns_entry io fs e hsound (i + 1) hsize (by omega) visit (fun xs => put (x, xs))
            (hput.rest x) xs

/-- A message is merged into the target. -/
theorem message_unpacks_over (io : Varints) {S : Type} (m : Message S) (x value : S)
    (hset : MessageSet m value) (hread : MessageReadable m value)
    (hsize : (encodeMessage io m value).length < 2 ^ 32) :
    ∃ s', unpackMessage io m x (.new (encodeMessage io m value)) =
      .ok ((mergeMessage m x value, true), s') := by
  match m, x, value with
  | .reflect few fields members, x, value =>
      have hentries : encodeMessage io (.reflect few fields members) value =
          (fieldEntries fields (members value)).flatMap (encodeEntry io fields 0) :=
        encode_fields_entries io fields 0 (members value)
      rw [hentries] at hsize ⊢
      rw [mergeMessage, merge_fields_entries]
      have hsound := entries_sound fields hset hread
      have hturns := turns_entries (fun values => values)
        (fun e he xs => turns_entry io fields e (hsound e he) 0
          ((encode_entry_le he).trans_lt hsize) (by omega) _ (fun values => values)
          (visits_self io fields) xs) (members x)
      exact message_of_turns_over hsize hturns
end

/-! ## The results -/

theorem encode_entry_pos (io : Varints) {ts : List Type} (fs : Fields ts) (i : Nat) (e : Entry fs) :
    0 < (encodeEntry io fs i e).length := by
  match fs, e with
  | .nil, e => exact e.elim
  | .cons name f fs, e =>
      match e with
      | .inl item =>
          rw [encodeEntry, entry, List.length_append]
          exact Nat.add_pos_left (unsigned_pos io _) _
      | .inr e => exact encode_entry_pos io fs (i + 1) e

section Entries

variable {S : Type} {ts : List Type} {few : ts.length ≤ 2 ^ 29} {fields : Fields ts}
  {members : S ≃ Values ts}

/-- Entries act on the target one after the other. -/
theorem unpack_entries (io : Varints) {es : List (Entry fields)}
    (hsound : ∀ e ∈ es, EntrySound fields e)
    (hsize : (es.flatMap (encodeEntry io fields 0)).length < 2 ^ 32) (x : S) :
    unpack io (.reflect few fields members) (es.flatMap (encodeEntry io fields 0)) x =
      .ok (members.symm (es.foldl (mergeEntry fields) (members x)), true) := by
  have hturns := turns_entries (fun values => values)
    (fun e he xs => turns_entry io fields e (hsound e he) 0
          ((encode_entry_le he).trans_lt hsize)
      (by omega) _ (fun values => values) (visits_self io fields) xs) (members x)
  obtain ⟨s', hs'⟩ : ∃ s', unpackMessage io (.reflect few fields members) x
      (.new (es.flatMap (encodeEntry io fields 0))) =
        .ok ((members.symm (es.foldl (mergeEntry fields) (members x)), true), s') :=
    message_of_turns_over hsize hturns
  cases es with
  | nil =>
      show Except.ok (x, true) = .ok (members.symm (members x), true)
      rw [Equiv.symm_apply_apply]
  | cons e es =>
      have hpos : ((e :: es).flatMap (encodeEntry io fields 0)).length ≠ 0 := by
        have hfirst := encode_entry_pos io fields 0 e
        rw [List.flatMap_cons, List.length_append]
        omega
      rw [unpack, if_neg hpos, to_nat_size hsize, List.take_length, hs']

/-- The entries of a message are in the encoding one after the other. -/
theorem encode_message_entries (io : Varints) (value : S) :
    encodeMessage io (.reflect few fields members) value =
      (fieldEntries fields (members value)).flatMap (encodeEntry io fields 0) :=
  encode_fields_entries io fields 0 (members value)

theorem merge_message_entries (x value : S) :
    mergeMessage (.reflect few fields members) x value =
      members.symm ((fieldEntries fields (members value)).foldl (mergeEntry fields) (members x)) :=
  congrArg members.symm (merge_fields_entries fields (members x) (members value))

/-- What the entries of some messages make of another one. -/
theorem foldl_merge_message (values : List S) (x : S) :
    values.foldl (mergeMessage (.reflect few fields members)) x = members.symm
      ((values.flatMap fun v => fieldEntries fields (members v)).foldl (mergeEntry fields)
        (members x)) := by
  induction values generalizing x with
  | nil => exact (members.symm_apply_apply x).symm
  | cons v values ih =>
      rw [List.foldl_cons, ih, merge_message_entries, Equiv.apply_symm_apply, List.flatMap_cons,
        List.foldl_append]

end Entries

/-- What is packed one message behind the other is unpacked as if each of them was merged into the
target in turn. -/
theorem concatenation (io : Varints) {S : Type} (m : Message S) (values : List S)
    (hset : ∀ v ∈ values, MessageSet m v) (hread : ∀ v ∈ values, MessageReadable m v)
    (hsize : (values.flatMap (encodeMessage io m)).length < 2 ^ 32) (x : S) :
    unpack io m (values.flatMap fun v => (pack io m [] v).1) x =
      .ok (values.foldl (mergeMessage m) x, true) := by
  have hpack : (values.flatMap fun v => (pack io m [] v).1) =
      values.flatMap (encodeMessage io m) := by
    refine List.flatMap_congr fun v hv => ?_
    have hlt : (encodeMessage io m v).length < 2 ^ 32 :=
      (length_le_flatMap hv (encodeMessage io m)).trans_lt hsize
    exact congrArg Prod.fst (pack_encodes io m [] (hset v hv) hlt)
  rw [hpack]
  cases m with
  | reflect few fields members =>
      have hentries : values.flatMap (encodeMessage io (.reflect few fields members)) =
          (values.flatMap fun v => fieldEntries fields (members v)).flatMap
            (encodeEntry io fields 0) := by
        rw [List.flatMap_assoc]
        exact List.flatMap_congr fun v _ => encode_message_entries io v
      rw [hentries] at hsize ⊢
      rw [foldl_merge_message]
      refine unpack_entries io (fun e he => ?_) hsize x
      obtain ⟨v, hv, he⟩ := List.mem_flatMap.mp he
      exact entries_sound fields (hset v hv) (hread v hv) e he

theorem length_somebody :
    letI := Machine.x86
    (encodeMessage .base128 person somebody).length < 100 := by
  simp [person, phone, somebody, encodeMessage, encodeFields, encodeMember, entry, payload,
    delimited, wireType, Varints.base128, tag, WireType.value, str, Base128.code_small, char,
    getWireType]

/-- A second message with another name and another phone. -/
def renamed : Option Text × Option Text × List (Byte × Unit) × Unit :=
  (some (str "B"), none, [(3, ())], ())

/-- The name is that of the second message, and the phones are those of both. -/
theorem concatenation_person :
    letI := Machine.x86
    unpack .base128 person ([somebody, renamed].flatMap fun v => (pack .base128 person [] v).1)
      (constructMessage 0 person) =
        .ok ((some (str "B"), none, [(1, ()), (2, ()), (3, ())], ()), true) := by
  let := Machine.x86
  have hset : ∀ v ∈ [somebody, renamed], MessageSet person v := by
    intro v hv
    simp only [List.mem_cons, List.not_mem_nil, or_false] at hv
    rcases hv with rfl | rfl
    · exact ⟨trivial, trivial, fun _ _ => ⟨trivial, trivial⟩, trivial⟩
    · exact ⟨trivial, trivial, fun _ _ => ⟨trivial, trivial⟩, trivial⟩
  have hread : ∀ v ∈ [somebody, renamed], MessageReadable person v := by
    intro v hv
    simp only [List.mem_cons, List.not_mem_nil, or_false] at hv
    rcases hv with rfl | rfl
    · exact ⟨trivial, trivial, ⟨Or.inl trivial, fun _ _ => ⟨trivial, trivial⟩⟩, trivial⟩
    · exact ⟨trivial, trivial, ⟨Or.inl trivial, fun _ _ => ⟨trivial, trivial⟩⟩, trivial⟩
  have hfirst := length_somebody
  have hsecond : (encodeMessage .base128 person renamed).length < 100 := by
    simp [person, phone, renamed, encodeMessage, encodeFields, encodeMember, entry, payload,
      delimited, wireType, Varints.base128, tag, WireType.value, str, Base128.code_small, char,
      getWireType]
  refine concatenation .base128 person [somebody, renamed] hset hread ?_
    (constructMessage 0 person)
  rw [List.flatMap_cons, List.flatMap_singleton, List.length_append]
  omega

/-- The entries of different fields can come in any order, whatever the target holds. -/
theorem any_order (io : Varints) {S : Type} {ts : List Type} (few : ts.length ≤ 2 ^ 29)
    (fields : Fields ts) (members : S ≃ Values ts) (v : S)
    (hset : MessageSet (.reflect few fields members) v)
    (hread : MessageReadable (.reflect few fields members) v)
    (hsize : (encodeMessage io (.reflect few fields members) v).length < 2 ^ 32)
    (es : List (Entry fields))
    (hsame : SameByKey (number fields) es (fieldEntries fields (members v))) :
    (∀ x, unpack io (.reflect few fields members) (es.flatMap (encodeEntry io fields 0)) x =
      unpack io (.reflect few fields members)
        (pack io (.reflect few fields members) [] v).1 x) ∧
    ∀ fill, unpack io (.reflect few fields members) (es.flatMap (encodeEntry io fields 0))
      (constructMessage fill (.reflect few fields members)) = .ok (v, true) := by
  have hpack : (pack io (.reflect few fields members) [] v).1 =
      (fieldEntries fields (members v)).flatMap (encodeEntry io fields 0) := by
    rw [pack_encodes io _ [] hset hsize, encode_message_entries]
  have hsound := entries_sound fields hset hread
  have hperm := perm_of_same hsame
  have hlen : (es.flatMap (encodeEntry io fields 0)).length < 2 ^ 32 := by
    rw [encode_message_entries] at hsize
    rw [(hperm.flatMap_right _).length_eq]
    exact hsize
  have hunpack : ∀ x, unpack io (.reflect few fields members)
      (es.flatMap (encodeEntry io fields 0)) x =
        .ok (mergeMessage (.reflect few fields members) x v, true) := by
    intro x
    rw [unpack_entries io (fun e he => hsound e (hperm.mem_iff.mp he)) hlen,
      merge_message_entries, foldl_eq_of_filter (commute_by_number fields) hsame]
  refine ⟨fun x => ?_, fun fill => ?_⟩
  · rw [encode_message_entries] at hsize
    rw [hunpack, hpack, unpack_entries io hsound hsize, merge_message_entries]
  · rw [hunpack, merge_construct_message]

/-- The fields of a person. -/
def personFields : Fields [Option Text, Option Text, List (Byte × Unit)] :=
  .cons (str "name") (.required .string) (.cons (str "email") (.optional .string)
    (.cons (str "phone") (.container (.message phone)) .nil))

/-- The name can come between the phones. -/
theorem any_order_person :
    letI := Machine.x86
    unpack .base128 person (([.inr (.inr (.inl (1, ()))), .inl (str "A"),
        .inr (.inr (.inl (2, ())))] : List (Entry personFields)).flatMap
          (encodeEntry .base128 personFields 0)) (constructMessage 0 person) =
      .ok (somebody, true) := by
  let := Machine.x86
  have few : [Option Text, Option Text, List (Byte × Unit)].length ≤ 2 ^ 29 := by decide
  have hset : MessageSet person somebody :=
    ⟨trivial, trivial, fun _ _ => ⟨trivial, trivial⟩, trivial⟩
  have hread : MessageReadable person somebody :=
    ⟨trivial, trivial, ⟨Or.inl trivial, fun _ _ => ⟨trivial, trivial⟩⟩, trivial⟩
  have hsize := length_somebody.trans (show 100 < 2 ^ 32 by decide)
  refine (any_order .base128 few personFields (Equiv.refl _) somebody hset hread hsize _ ?_).2 0
  intro k
  match k with
  | 0 => rfl
  | 1 => rfl
  | 2 => rfl
  | k + 3 => simp [ofKey, number, fieldEntries, items, personFields, somebody]

end BoostRpc.ProtocolBuffer
