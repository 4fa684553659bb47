import BoostRpc.ProtocolBuffer.Encoding

/-!
# Flaws of buffers

What can be wrong with the bytes of a message, told from the bytes alone. `Damaged` are the
buffers that break off within a field, or that have a field with another wire type, an unknown key
or a length beyond the buffer. `FirstFlaw` is the first flaw of any buffer in the order in which
fields are read, nested messages where they stand; `exists_first_flaw` says that it is always
defined, where the stream operators are as assumed.
-/

namespace BoostRpc.ProtocolBuffer

open Raw

/-! ## Shapes -/

/-- What a type takes from a buffer. -/
inductive Shape where
  | fixed (size : UInt32)
  | unsigned
  | signed
  | chars
  | message (fields : List Shape)
  /-- The elements of a container of scalars, which are not read. -/
  | scalars

/-- The wire type that the unpacker expects. -/
def Shape.wireType : Shape → WireType
  | .fixed size => getWireType size
  | .unsigned => .varint
  | .signed => .varint
  | .chars => .lengthDelimited
  | .message _ => .lengthDelimited
  | .scalars => .lengthDelimited

/-- The elements of a container. -/
def Shape.repeated : Shape → Shape
  | .chars => .chars
  | .message fields => .message fields
  | .fixed _ => .scalars
  | .unsigned => .scalars
  | .signed => .scalars
  | .scalars => .scalars

mutual
def Element.shape : {α : Type} → Element α → Shape
  | _, .fundamental t => .fixed t.size
  | _, .unsignedInt => .unsigned
  | _, .signedInt => .signed
  | _, .string => .chars
  | _, .message m => .message m.shapes

def Field.shape : {α : Type} → Field α → Shape
  | _, .plain t => t.shape
  | _, .optional t => t.shape
  | _, .required t => t.shape
  | _, .container t => t.shape.repeated

def Fields.shapes : {ts : List Type} → Fields ts → List Shape
  | _, .nil => []
  | _, .cons _ f fs => f.shape :: fs.shapes

/-- The shapes of the fields of a message. -/
def Message.shapes : {S : Type} → Message S → List Shape
  | _, .reflect _ fields _ => fields.shapes
end

/-! ## Numbers -/

section Numbers

variable {β : Type}

/-- Bytes that the reader takes as a number. -/
def IsNumber (reader : Reader β) (bytes : Text) (x : β) : Prop :=
  bytes ≠ [] ∧ Reads reader bytes x

/-- A stream with these bytes ends inside a number: the reader returns something and leaves the
stream behind its end, by less than what `remaining` can count. -/
structure Cut (reader : Reader β) (bytes : Text) (x : β) (past : Nat) : Prop where
  behind : 0 < past
  bounded : past < 2 ^ 32
  reads : ∀ s, s.rest = bytes → reader s = .ok (x, s.skip (bytes.length + past))

/-- The bytes start with a number or end inside one. -/
def StartsOrEnds (reader : Reader β) (bytes : Text) : Prop :=
  (∃ number x rest, bytes = number ++ rest ∧ IsNumber reader number x) ∨
    ∃ x past, Cut reader bytes x past

end Numbers

/-- What is assumed of the stream operators: a stream that ends inside a number is not valid any
more when the number has been read. -/
structure Varints.Invalidating (io : Varints) : Prop where
  unsigned : ∀ bytes, StartsOrEnds io.getUnsigned bytes
  signed : ∀ bytes, StartsOrEnds io.getSigned bytes

/-- The shape of the field with the key of a tag. -/
def shapeAt (fields : List Shape) (tag : UInt32) : Option Shape := fields[(tag >>> 3).toNat]?

/-- A tag of a field of this shape. -/
structure IsTag (io : Varints) (fields : List Shape) (bytes : Text) (k : Shape) (tag : UInt32) :
    Prop where
  number : IsNumber io.getUnsigned bytes tag
  field : shapeAt fields tag = some k
  type : tag &&& 7 = k.wireType.value

/-! ## Damaged buffers -/

mutual
/-- Bytes of a field behind its tag, as they should be. -/
inductive Whole (io : Varints) : Shape → Text → Prop where
  | fixed (size bytes) : bytes.length = size.toNat → Whole io (.fixed size) bytes
  | unsigned (bytes n) : IsNumber io.getUnsigned bytes n → Whole io .unsigned bytes
  | signed (bytes n) : IsNumber io.getSigned bytes n → Whole io .signed bytes
  | chars (size n content) :
      IsNumber io.getUnsigned size n → n.toNat = content.length →
      Whole io .chars (size ++ content)
  | message (fields size n content) :
      IsNumber io.getUnsigned size n → n.toNat = content.length → AllWhole io fields content →
      Whole io (.message fields) (size ++ content)

/-- Bytes of a message: such fields in a row. -/
inductive AllWhole (io : Varints) : List Shape → Text → Prop where
  | nil (fields) : AllWhole io fields []
  | cons (fields tag k n bytes rest) :
      IsTag io fields tag k n → Whole io k bytes → AllWhole io fields rest →
      AllWhole io fields (tag ++ (bytes ++ rest))
end

/-- What can be wrong with a field. -/
inductive Flaw where
  | unknownKey
  | wrongType
  /-- The length of a nested message is beyond the buffer. -/
  | messageLength
  /-- The length of a string is beyond the buffer. -/
  | stringLength
  /-- The buffer ends inside a tag, a number or a length. -/
  | cut
  /-- An element of a container of scalars. -/
  | scalars
  deriving DecidableEq

/-- Behind fields as they should be, perhaps in a nested message, there is a field with this flaw.
-/
inductive Faulty (io : Varints) : List Shape → Text → Flaw → Prop where
  | unknownKey (fields tag n rest) :
      IsNumber io.getUnsigned tag n → shapeAt fields n = none →
      Faulty io fields (tag ++ rest) .unknownKey
  | wrongType (fields tag n k rest) :
      IsNumber io.getUnsigned tag n → shapeAt fields n = some k → n &&& 7 ≠ k.wireType.value →
      Faulty io fields (tag ++ rest) .wrongType
  | stringLength (fields tag n size length rest) :
      IsTag io fields tag .chars n → IsNumber io.getUnsigned size length →
      rest.length < length.toNat →
      Faulty io fields (tag ++ (size ++ rest)) .stringLength
  | messageLength (fields tag n inner size length rest) :
      IsTag io fields tag (.message inner) n → IsNumber io.getUnsigned size length →
      rest.length < length.toNat →
      Faulty io fields (tag ++ (size ++ rest)) .messageLength
  | inside (fields tag n inner size length content rest flaw) :
      IsTag io fields tag (.message inner) n → IsNumber io.getUnsigned size length →
      length.toNat = content.length → Faulty io inner content flaw →
      Faulty io fields (tag ++ (size ++ (content ++ rest))) flaw
  | behind (fields tag n k bytes rest flaw) :
      IsTag io fields tag k n → Whole io k bytes → Faulty io fields rest flaw →
      Faulty io fields (tag ++ (bytes ++ rest)) flaw

/-- The entries of a field, one by one. -/
def entriesMember (io : Varints) : {α : Type} → Field α → UInt32 → α → List Text
  | _, .plain t, key, value => [entry io key (wireType t) (payload io t value)]
  | _, .optional _, _, none => []
  | _, .optional t, key, some value => [entry io key (wireType t) (payload io t value)]
  | _, .required _, _, none => []
  | _, .required t, key, some value => [entry io key (wireType t) (payload io t value)]
  | _, .container t, key, values =>
      values.map fun value => entry io key (wireType t) (payload io t value)

/-- The entries of the fields from a number on. -/
def entriesFields (io : Varints) : {ts : List Type} → Fields ts → Nat → Values ts → List Text
  | _, .nil, _, _ => []
  | _, .cons _ f fs, i, (value, values) =>
      entriesMember io f (UInt32.ofNat i) value ++ entriesFields io fs (i + 1) values

/-- The entries of a message. -/
def entries (io : Varints) : {S : Type} → Message S → S → List Text
  | _, .reflect _ fields members, value => entriesFields io fields 0 (members value)

theorem entries_member_flatten (io : Varints) {α : Type} (f : Field α) (key : UInt32) (value : α) :
    (entriesMember io f key value).flatten = encodeMember io f key value := by
  match f, value with
  | .plain t, value => exact List.flatten_singleton
  | .optional t, none => rfl
  | .optional t, some value => exact List.flatten_singleton
  | .required t, none => rfl
  | .required t, some value => exact List.flatten_singleton
  | .container t, values => exact List.flatMap_def.symm

theorem entries_fields_flatten (io : Varints) {ts : List Type} (fs : Fields ts) (i : Nat)
    (values : Values ts) :
    (entriesFields io fs i values).flatten = encodeFields io fs i values := by
  match fs, values with
  | .nil, _ => rfl
  | .cons name f fs, (value, values) =>
      rw [entriesFields, List.flatten_append, entries_member_flatten, entries_fields_flatten,
        encodeFields]

/-- The entries in a row are the encoding. -/
theorem entries_flatten (io : Varints) {S : Type} (m : Message S) (v : S) :
    (entries io m v).flatten = encodeMessage io m v := by
  cases m with
  | reflect few fields members => exact entries_fields_flatten io fields 0 (members v)

/-- The bytes are the beginning of the encoding of some value and end inside one of its entries. -/
structure Truncated (io : Varints) {S : Type} (m : Message S) (v : S) (bytes : Text) : Prop where
  set : MessageSet m v
  starts : bytes <+: encodeMessage io m v
  inside : ∀ k, bytes ≠ ((entries io m v).take k).flatten

/-- A buffer that breaks off within a field, or that has a faulty one. -/
def Damaged (io : Varints) {S : Type} (m : Message S) (bytes : Text) : Prop :=
  (∃ v, Truncated io m v bytes) ∨ ∃ flaw, Faulty io m.shapes bytes flaw

/-! ## The first flaw -/

/-- What happens to the bytes of a field behind its tag. -/
inductive Outcome where
  /-- The field is behind its bytes, in front of these ones. -/
  | passes (rest : Text)
  | stops (flaw : Flaw)

mutual
/-- The first flaw of the bytes of a message, if they have one. A scalar that is longer than what
is left is none: it takes nothing, and the bytes behind its tag count as fields. -/
inductive FirstFlaw (io : Varints) : List Shape → Text → Option Flaw → Prop where
  | none (fields) : FirstFlaw io fields [] none
  | cut (fields bytes n past) :
      bytes ≠ [] → Cut io.getUnsigned bytes n past → FirstFlaw io fields bytes (some .cut)
  | unknownKey (fields tag n rest) :
      IsNumber io.getUnsigned tag n → shapeAt fields n = none →
      FirstFlaw io fields (tag ++ rest) (some .unknownKey)
  | wrongType (fields tag n k rest) :
      IsNumber io.getUnsigned tag n → shapeAt fields n = some k → n &&& 7 ≠ k.wireType.value →
      FirstFlaw io fields (tag ++ rest) (some .wrongType)
  | passed (fields tag n k bytes rest flaw) :
      IsTag io fields tag k n → Behind io k bytes (.passes rest) → FirstFlaw io fields rest flaw →
      FirstFlaw io fields (tag ++ bytes) flaw
  | stopped (fields tag n k bytes flaw) :
      IsTag io fields tag k n → Behind io k bytes (.stops flaw) →
      FirstFlaw io fields (tag ++ bytes) (some flaw)

/-- What happens to the bytes behind the tag of a field. -/
inductive Behind (io : Varints) : Shape → Text → Outcome → Prop where
  | fixed (size bytes rest) :
      bytes.length = size.toNat → Behind io (.fixed size) (bytes ++ rest) (.passes rest)
  | short (size bytes) :
      bytes.length < size.toNat → Behind io (.fixed size) bytes (.passes bytes)
  | unsigned (bytes n rest) :
      IsNumber io.getUnsigned bytes n → Behind io .unsigned (bytes ++ rest) (.passes rest)
  | unsignedCut (bytes n past) :
      Cut io.getUnsigned bytes n past → Behind io .unsigned bytes (.stops .cut)
  | signed (bytes n rest) :
      IsNumber io.getSigned bytes n → Behind io .signed (bytes ++ rest) (.passes rest)
  | signedCut (bytes n past) :
      Cut io.getSigned bytes n past → Behind io .signed bytes (.stops .cut)
  | chars (size n content rest) :
      IsNumber io.getUnsigned size n → n.toNat = content.length →
      Behind io .chars (size ++ (content ++ rest)) (.passes rest)
  | charsBeyond (size n rest) :
      IsNumber io.getUnsigned size n → rest.length < n.toNat →
      Behind io .chars (size ++ rest) (.stops .stringLength)
  | charsCut (bytes n past) :
      Cut io.getUnsigned bytes n past → Behind io .chars bytes (.stops .cut)
  | message (fields size n content rest) :
      IsNumber io.getUnsigned size n → n.toNat = content.length → FirstFlaw io fields content none →
      Behind io (.message fields) (size ++ (content ++ rest)) (.passes rest)
  | messageFlaw (fields size n content rest flaw) :
      IsNumber io.getUnsigned size n → n.toNat = content.length →
      FirstFlaw io fields content (some flaw) →
      Behind io (.message fields) (size ++ (content ++ rest)) (.stops flaw)
  | messageBeyond (fields size n rest) :
      IsNumber io.getUnsigned size n → rest.length < n.toNat →
      Behind io (.message fields) (size ++ rest) (.stops .messageLength)
  | messageCut (fields bytes n past) :
      Cut io.getUnsigned bytes n past → n.toNat + past ≤ 2 ^ 32 →
      Behind io (.message fields) bytes (.stops .cut)
  /-- `remaining` wraps, and what the operator returned is larger still. -/
  | messageCutBeyond (fields bytes n past) :
      Cut io.getUnsigned bytes n past → 2 ^ 32 < n.toNat + past →
      Behind io (.message fields) bytes (.stops .messageLength)
  | scalars (bytes) : Behind io .scalars bytes (.stops .scalars)
end

/-- A field takes no bytes that are not there. -/
theorem behind_length_le {io : Varints} {k : Shape} {bytes rest : Text}
    (h : Behind io k bytes (.passes rest)) : rest.length ≤ bytes.length := by
  cases h with
  | short _ _ _ => exact Nat.le_refl _
  | fixed _ _ _ _ => simp only [List.length_append]; omega
  | unsigned _ _ _ _ => simp only [List.length_append]; omega
  | signed _ _ _ _ => simp only [List.length_append]; omega
  | chars _ _ _ _ _ _ => simp only [List.length_append]; omega
  | message _ _ _ _ _ _ _ _ => simp only [List.length_append]; omega

section Exists

variable {io : Varints}

/-- Bytes behind a length: those that it counts, or fewer. -/
theorem content_or_beyond (n : UInt32) (bytes : Text) :
    (∃ content rest, bytes = content ++ rest ∧ n.toNat = content.length) ∨
      bytes.length < n.toNat := by
  by_cases h : bytes.length < n.toNat
  · exact .inr h
  · refine .inl ⟨bytes.take n.toNat, bytes.drop n.toNat, (List.take_append_drop _ _).symm, ?_⟩
    rw [List.length_take]
    omega

/-- Something happens to the bytes of every field. -/
theorem exists_behind (hio : io.Invalidating) (k : Shape) (bytes : Text)
    (ih : ∀ (content : Text) fields, content.length ≤ bytes.length →
      ∃ flaw, FirstFlaw io fields content flaw) : ∃ outcome, Behind io k bytes outcome := by
  cases k with
  | fixed size =>
      rcases content_or_beyond size bytes with ⟨content, rest, rfl, hsize⟩ | hshort
      · exact ⟨_, .fixed size content rest hsize.symm⟩
      · exact ⟨_, .short size bytes hshort⟩
  | unsigned =>
      rcases hio.unsigned bytes with ⟨number, n, rest, rfl, hnumber⟩ | ⟨n, past, hcut⟩
      · exact ⟨_, .unsigned number n rest hnumber⟩
      · exact ⟨_, .unsignedCut bytes n past hcut⟩
  | signed =>
      rcases hio.signed bytes with ⟨number, n, rest, rfl, hnumber⟩ | ⟨n, past, hcut⟩
      · exact ⟨_, .signed number n rest hnumber⟩
      · exact ⟨_, .signedCut bytes n past hcut⟩
  | chars =>
      rcases hio.unsigned bytes with ⟨size, n, behind, rfl, hnumber⟩ | ⟨n, past, hcut⟩
      · rcases content_or_beyond n behind with ⟨content, rest, rfl, hn⟩ | hbeyond
        · exact ⟨_, .chars size n content rest hnumber hn⟩
        · exact ⟨_, .charsBeyond size n behind hnumber hbeyond⟩
      · exact ⟨_, .charsCut bytes n past hcut⟩
  | message fields =>
      rcases hio.unsigned bytes with ⟨size, n, behind, rfl, hnumber⟩ | ⟨n, past, hcut⟩
      · rcases content_or_beyond n behind with ⟨content, rest, rfl, hn⟩ | hbeyond
        · obtain ⟨flaw, hflaw⟩ := ih content fields (by simp only [List.length_append]; omega)
          cases flaw with
          | none => exact ⟨_, .message fields size n content rest hnumber hn hflaw⟩
          | some flaw => exact ⟨_, .messageFlaw fields size n content rest flaw hnumber hn hflaw⟩
        · exact ⟨_, .messageBeyond fields size n behind hnumber hbeyond⟩
      · by_cases hwraps : n.toNat + past ≤ 2 ^ 32
        · exact ⟨_, .messageCut fields bytes n past hcut hwraps⟩
        · exact ⟨_, .messageCutBeyond fields bytes n past hcut (by omega)⟩
  | scalars => exact ⟨_, .scalars bytes⟩

/-- All bytes have a first flaw or none. -/
theorem exists_first_flaw (hio : io.Invalidating) (fields : List Shape) (bytes : Text) :
    ∃ flaw, FirstFlaw io fields bytes flaw := by
  induction hlen : bytes.length using Nat.strong_induction_on generalizing fields bytes with
  | _ length ih =>
      subst hlen
      by_cases hnil : bytes = []
      · subst hnil
        exact ⟨_, .none fields⟩
      rcases hio.unsigned bytes with ⟨tag, n, behind, rfl, hnumber⟩ | ⟨n, past, hcut⟩
      · have htag := List.length_pos_iff.mpr hnumber.1
        rw [List.length_append] at ih
        cases hshape : shapeAt fields n with
        | none => exact ⟨_, .unknownKey fields tag n behind hnumber hshape⟩
        | some k =>
            by_cases htype : n &&& 7 = k.wireType.value
            · have hfield : IsTag io fields tag k n := ⟨hnumber, hshape, htype⟩
              obtain ⟨outcome, hbehind⟩ := exists_behind hio k behind
                fun content fields hle => ih _ (by omega) fields content rfl
              cases outcome with
              | passes rest =>
                  have hle := behind_length_le hbehind
                  obtain ⟨flaw, hflaw⟩ := ih _ (by omega) fields rest rfl
                  exact ⟨_, .passed fields tag n k behind rest flaw hfield hbehind hflaw⟩
              | stops flaw => exact ⟨_, .stopped fields tag n k behind flaw hfield hbehind⟩
            · exact ⟨_, .wrongType fields tag n k behind hnumber hshape htype⟩
      · exact ⟨_, .cut fields bytes n past hnil hcut⟩

end Exists

/-! ## Faulty fields -/

mutual
/-- Bytes as they should be are passed. -/
theorem Whole.behind {io : Varints} {k : Shape} {bytes : Text} (h : Whole io k bytes)
    (rest : Text) : Behind io k (bytes ++ rest) (.passes rest) := by
  match h with
  | .fixed size bytes hsize => exact .fixed size bytes rest hsize
  | .unsigned bytes n hn => exact .unsigned bytes n rest hn
  | .signed bytes n hn => exact .signed bytes n rest hn
  | .chars size n content hsize hn =>
      rw [List.append_assoc]
      exact .chars size n content rest hsize hn
  | .message fields size n content hsize hn hcontent =>
      have hnone := hcontent.first_flaw (.none fields)
      rw [List.append_nil] at hnone
      rw [List.append_assoc]
      exact .message fields size n content rest hsize hn hnone

/-- The first flaw is behind fields as they should be. -/
theorem AllWhole.first_flaw {io : Varints} {fields : List Shape} {bytes : Text}
    (h : AllWhole io fields bytes) {rest : Text} {flaw : Option Flaw}
    (hrest : FirstFlaw io fields rest flaw) : FirstFlaw io fields (bytes ++ rest) flaw := by
  match h with
  | .nil fields => exact hrest
  | .cons fields tag k n bytes behind htag hbytes hbehind =>
      rw [List.append_assoc, List.append_assoc]
      exact .passed fields tag n k _ _ _ htag (hbytes.behind (behind ++ rest))
        (hbehind.first_flaw hrest)
end

/-- The flaw of the faulty field is the first one. -/
theorem Faulty.first_flaw {io : Varints} {fields : List Shape} {bytes : Text} {flaw : Flaw}
    (h : Faulty io fields bytes flaw) : FirstFlaw io fields bytes (some flaw) := by
  induction h with
  | unknownKey fields tag n rest hn hkey => exact .unknownKey fields tag n rest hn hkey
  | wrongType fields tag n k rest hn hkey htype =>
      exact .wrongType fields tag n k rest hn hkey htype
  | stringLength fields tag n size length rest htag hsize hlength =>
      exact .stopped fields tag n .chars _ _ htag (.charsBeyond size length rest hsize hlength)
  | messageLength fields tag n inner size length rest htag hsize hlength =>
      exact .stopped fields tag n (.message inner) _ _ htag
        (.messageBeyond inner size length rest hsize hlength)
  | inside fields tag n inner size length content rest flaw htag hsize hlength _ ih =>
      exact .stopped fields tag n (.message inner) _ _ htag
        (.messageFlaw inner size length content rest flaw hsize hlength ih)
  | behind fields tag n k bytes rest flaw htag hbytes _ ih =>
      exact .passed fields tag n k _ rest _ htag (hbytes.behind rest) ih

end BoostRpc.ProtocolBuffer
