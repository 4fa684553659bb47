import BoostRpc.ProtocolBuffer.Encoding
import BoostRpc.Raw.Validity

/-!
# The protocol-buffer round trip

`Takes` says that code takes certain bytes off a stream and what it makes of them, and `Turns` what
the loop over the entries of a message makes of some of them. `turns_fields` shows by recursion on
the fields that the loop reads back the entries of a message; `message_round_trip` is the round trip
of messages whose encoding is shorter than 2^32 bytes and whose containers of scalars are empty.
-/

namespace BoostRpc.ProtocolBuffer

open Raw

variable {α β γ : Type}

/-! ## Taking bytes -/

/-- The cursor is in a buffer whose size is a `uint32_t`. -/
structure Inside (s : Datastream) : Prop where
  small : s.data.length < 2 ^ 32
  inside : s.pos ≤ s.data.length

/-- The code takes these bytes off any stream that goes on with them and returns `x`. -/
def Takes (body : Unpack β) (bytes : Text) (x : β) : Prop :=
  ∀ s r, Inside s → s.rest = bytes ++ r → body s = .ok (x, s.skip bytes.length)

theorem Inside.skip {s : Datastream} (h : Inside s) {bytes r : Text} (hs : s.rest = bytes ++ r) :
    Inside (s.skip bytes.length) := by
  refine ⟨h.small, ?_⟩
  have hlength := congrArg List.length hs
  have hinside := h.inside
  simp only [Datastream.rest, List.length_drop, List.length_append] at hlength
  show s.pos + bytes.length ≤ s.data.length
  omega

theorem inside_new {data : Text} (h : data.length < 2 ^ 32) : Inside (.new data) :=
  ⟨h, Nat.zero_le _⟩

/-- What is behind code that comes back. -/
theorem bind_of_ok {first : Unpack β} {second : β → Unpack γ} {s s' : Datastream} {x : β}
    (h : first s = .ok (x, s')) : (first >>= second) s = second x s' := by
  show (first s >>= fun p => second p.1 p.2) = _
  rw [h]
  rfl

/-- Code that takes nothing. -/
theorem Takes.pure (x : β) : Takes (Pure.pure x) [] x := fun _ _ _ _ => rfl

/-- Code and then other code. -/
theorem Takes.bind {first : Unpack β} {second : β → Unpack γ} {a b : Text} {x : β} {y : γ}
    (hfirst : Takes first a x) (hsecond : Takes (second x) b y) :
    Takes (first >>= second) (a ++ b) y := by
  intro s r hs h
  rw [List.append_assoc] at h
  have hrest := Datastream.rest_skip_append h
  rw [bind_of_ok (hfirst s (b ++ r) hs h), hsecond _ r (hs.skip h) hrest, Datastream.skip_skip,
    List.length_append]

/-- Code behind which nothing is taken any more. -/
theorem Takes.andThen {first : Unpack β} {second : β → Unpack γ} {a : Text} {x : β} {y : γ}
    (hfirst : Takes first a x) (hsecond : Takes (second x) [] y) :
    Takes (first >>= second) a y := by
  rw [← List.append_nil a]
  exact hfirst.bind hsecond

/-- What an operator for a stream extracts. -/
theorem takes_extract {reader : Reader β} {bytes : Text} {x : β} (h : Reads reader bytes x) :
    Takes (extract reader) bytes x := by
  intro s r _ hs
  rw [extract, h s r hs]

/-- The decoder asks the stream. -/
theorem valid_eq (s : Datastream) : valid s = .ok (s.valid, s) := rfl

theorem takes_valid : Takes valid [] true := by
  intro s r h _
  rw [valid_eq, Datastream.valid, decide_eq_true h.inside]
  rfl

/-- The number of bytes that are left. -/
theorem remaining_eq {s : Datastream} (h : Inside s) :
    remaining s = .ok (UInt32.ofNat s.rest.length, s) := by
  have hsmall := h.small
  have hlength : s.rest.length = s.data.length - s.pos := List.length_drop
  have hremaining : s.remaining = UInt32.ofNat s.rest.length := by
    apply UInt32.toNat_inj.mp
    rw [remaining_inside hsmall h.inside, UInt32.toNat_ofNat_of_lt' (Nat.lt_of_le_of_lt (by omega)
      hsmall), hlength]
  rw [← hremaining]
  rfl

theorem to_nat_rest {s : Datastream} (h : Inside s) :
    (UInt32.ofNat s.rest.length).toNat = s.rest.length := by
  have hsmall := h.small
  refine UInt32.toNat_ofNat_of_lt' ?_
  show s.rest.length < 2 ^ 32
  simp only [Datastream.rest, List.length_drop]
  omega

/-- The test for the bytes that are left succeeds where they are taken. -/
theorem takes_if_remaining {size : UInt32} {yes no : Unpack β} {bytes : Text} {x : β}
    (h : Takes yes bytes x) (hsize : size.toNat ≤ bytes.length) :
    Takes (remaining >>= fun left => if size ≤ left then yes else no) bytes x := by
  intro s r hs hrest
  have hle : size ≤ UInt32.ofNat s.rest.length := by
    rw [UInt32.le_iff_toNat_le, to_nat_rest hs, hrest, List.length_append]
    omega
  rw [bind_of_ok (remaining_eq hs), if_pos hle]
  exact h s r hs hrest

/-- The bytes in front of the cursor. -/
theorem peek_eq {s : Datastream} {bytes r : Text} (hs : Inside s) (hrest : s.rest = bytes ++ r)
    {size : UInt32} (hsize : size.toNat = bytes.length) : peek size s = .ok (bytes, s) := by
  have hlength := congrArg List.length hrest
  have hinside := hs.inside
  simp only [Datastream.rest, List.length_drop, List.length_append] at hlength
  have htake : (s.data.drop s.pos).take size.toNat = bytes := by
    show s.rest.take size.toNat = bytes
    rw [hrest, hsize, List.take_left]
  rw [peek, if_pos (.inr (by omega)), htake]

theorem takes_skip {size : UInt32} {bytes : Text} (hsize : size.toNat = bytes.length) :
    Takes (skip size) bytes () := by
  intro s r _ _
  rw [skip, hsize]

/-- The test of the key and the wire type succeeds for the tag of the field. -/
theorem check_key_same (name : Text) (key : UInt32) (type : WireType) :
    checkKey name key key type.value type = return () := by
  rw [checkKey, if_neg]
  simp

/-- What has a length in front of it. -/
theorem to_nat_size {bytes : Text} (h : bytes.length < 2 ^ 32) :
    (UInt32.ofNat bytes.length).toNat = bytes.length := UInt32.toNat_ofNat_of_lt' h

/-- A string behind bytes that are read as its length. -/
theorem takes_chars_behind {io : Varints} {size value : Text} {n : UInt32}
    (hsize : Reads io.getUnsigned size n) (hn : n.toNat = value.length) :
    Takes (unpackChars io) (size ++ value) (some value) := by
  refine (takes_extract hsize).bind (takes_if_remaining ?_ (Nat.le_of_eq hn))
  intro s r hs hrest
  have hskip : Takes (skip n >>= fun _ => Pure.pure (some value)) value (some value) :=
    (takes_skip hn).andThen (Takes.pure _)
  rw [bind_of_ok (peek_eq hs hrest hn)]
  exact hskip s r hs hrest

/-- The string of a field. -/
theorem takes_chars (io : Varints) {value : Text} (h : value.length < 2 ^ 32) :
    Takes (unpackChars io) (delimited io value) (some value) :=
  takes_chars_behind (io.reads_unsigned _) (to_nat_size h)

/-- What comes back from a stream of its own. -/
theorem nested_of_ok {s : Datastream} {bytes r : Text} (hs : Inside s)
    (hrest : s.rest = bytes ++ r) {size : UInt32} (hsize : size.toNat = bytes.length)
    {body : Unpack β} {x : β} {s' : Datastream} (h : body (.new bytes) = .ok (x, s')) :
    nested size body s = .ok (x, s) := by
  rw [nested, bind_of_ok (peek_eq hs hrest hsize), h]
  rfl

theorem nested_of_error {s : Datastream} {bytes r : Text} (hs : Inside s)
    (hrest : s.rest = bytes ++ r) {size : UInt32} (hsize : size.toNat = bytes.length)
    {body : Unpack β} {e : Failure} (h : body (.new bytes) = .error e) :
    nested size body s = .error e := by
  rw [nested, bind_of_ok (peek_eq hs hrest hsize), h]
  rfl

/-- A nested message behind bytes that are read as its length. -/
theorem takes_sized_behind {io : Varints} (name : Text) {body : Unpack (β × Bool)}
    {size bytes : Text} {n : UInt32} (hsize : Reads io.getUnsigned size n)
    (hn : n.toNat = bytes.length) {x : β} {s' : Datastream}
    (hbody : body (.new bytes) = .ok ((x, true), s')) :
    Takes (unpackSized io name body) (size ++ bytes) (x, true, false) := by
  refine (takes_extract hsize).bind (takes_if_remaining ?_ (Nat.le_of_eq hn))
  intro s r hs hrest
  have hskip : Takes (do
      skip n
      return (x, true, !(← valid)) : Unpack (β × Bool × Bool)) bytes (x, true, false) :=
    (takes_skip hn).andThen (takes_valid.andThen (Takes.pure _))
  rw [bind_of_ok (nested_of_ok hs hrest hn hbody)]
  exact hskip s r hs hrest

/-- A nested message. -/
theorem takes_sized (io : Varints) (name : Text) {body : Unpack (β × Bool)} {bytes : Text}
    (h : bytes.length < 2 ^ 32) {x : β} {s' : Datastream}
    (hbody : body (.new bytes) = .ok ((x, true), s')) :
    Takes (unpackSized io name body) (delimited io bytes) (x, true, false) :=
  takes_sized_behind name (io.reads_unsigned _) (to_nat_size h) hbody

/-! ## Turns of the loop -/

section Turns

variable (io : Varints) {unpackField : UInt32 → UInt32 → β → Unpack (β × Bool)}

/-- The loop takes these bytes in some turns, which make `y` of `x`. -/
def Turns (unpackField : UInt32 → UInt32 → β → Unpack (β × Bool)) (bytes : Text) (x y : β) :
    Prop :=
  ∀ s r, Inside s → s.rest = bytes ++ r → ∃ k, k ≤ bytes.length ∧ ∀ fuel,
    unpackLoop io unpackField (fuel + k) x s =
      unpackLoop io unpackField fuel y (s.skip bytes.length)

variable {io}

theorem Turns.nil (x : β) : Turns io unpackField [] x x :=
  fun _ _ _ _ => ⟨0, Nat.le_refl 0, fun _ => rfl⟩

theorem Turns.append {a b : Text} {x y z : β} (hfirst : Turns io unpackField a x y)
    (hsecond : Turns io unpackField b y z) : Turns io unpackField (a ++ b) x z := by
  intro s r hs h
  rw [List.append_assoc] at h
  obtain ⟨k, hk, hturns⟩ := hfirst s (b ++ r) hs h
  obtain ⟨l, hl, hturns'⟩ := hsecond _ r (hs.skip h) (Datastream.rest_skip_append h)
  refine ⟨l + k, by rw [List.length_append]; omega, fun fuel => ?_⟩
  rw [← Nat.add_assoc, hturns, hturns', Datastream.skip_skip, List.length_append]

/-- A number that is read back takes a byte at least. -/
theorem unsigned_pos (io : Varints) (n : UInt32) : 0 < (io.unsigned n).length := by
  by_contra h
  have hempty : io.unsigned n = [] := List.eq_nil_of_length_eq_zero (Nat.eq_zero_of_not_pos h)
  -- without a byte it would be read in front of any other number
  have hread := io.reads_unsigned n (.new (io.unsigned (n + 1))) (io.unsigned (n + 1))
    (by rw [hempty]; rfl)
  have hread' := io.reads_unsigned (n + 1) (.new (io.unsigned (n + 1))) []
    (by rw [List.append_nil]; rfl)
  have heq : n = n + 1 := congrArg Prod.fst (Except.ok.inj (hread.symm.trans hread'))
  exact absurd heq (by simp)

/-- The beginning of a turn in front of bytes that are read as a tag. -/
theorem loop_number {s : Datastream} {n : UInt32} {number r : Text} (hs : Inside s)
    (hpos : 0 < number.length) (hread : Reads io.getUnsigned number n) (h : s.rest = number ++ r)
    (fuel : Nat) (x : β) :
    unpackLoop io unpackField (fuel + 1) x s =
      (unpackField (n >>> 3) (n &&& 7) x >>= fun p =>
        if p.2 then return (p.1, false) else unpackLoop io unpackField fuel p.1)
          (s.skip number.length) := by
  have hleft : UInt32.ofNat s.rest.length ≠ 0 := by
    intro heq
    have hzero := congrArg UInt32.toNat heq
    rw [to_nat_rest hs, h, List.length_append] at hzero
    exact absurd hzero (by show ¬ _ = 0; omega)
  rw [unpackLoop, bind_of_ok (remaining_eq hs), if_neg hleft,
    bind_of_ok (takes_extract hread s r hs h),
    bind_of_ok (takes_valid _ r (hs.skip h) (Datastream.rest_skip_append h))]
  rfl

/-- The beginning of a turn in front of a tag. -/
theorem loop_tag {s : Datastream} {n : UInt32} {r : Text} (hs : Inside s)
    (h : s.rest = io.unsigned n ++ r) (fuel : Nat) (x : β) :
    unpackLoop io unpackField (fuel + 1) x s =
      (unpackField (n >>> 3) (n &&& 7) x >>= fun p =>
        if p.2 then return (p.1, false) else unpackLoop io unpackField fuel p.1)
          (s.skip (io.unsigned n).length) :=
  loop_number hs (unsigned_pos io n) (io.reads_unsigned n) h fuel x

/-- A turn that reads an entry. -/
theorem Turns.entry {key : UInt32} {type : WireType} {bytes : Text} {x y : β}
    (h : Takes (unpackField (tag key type >>> 3) (tag key type &&& 7) x) bytes (y, false)) :
    Turns io unpackField (entry io key type bytes) x y := by
  intro s r hs hrest
  have hpos := unsigned_pos io (tag key type)
  rw [ProtocolBuffer.entry, List.append_assoc] at hrest
  refine ⟨1, by rw [ProtocolBuffer.entry, List.length_append]; omega, fun fuel => ?_⟩
  rw [loop_tag hs hrest, bind_of_ok (h _ r (hs.skip hrest) (Datastream.rest_skip_append hrest)),
    Datastream.skip_skip, ProtocolBuffer.entry, List.length_append]
  rfl

/-- The loop ends behind the last byte. -/
theorem loop_end {s : Datastream} (hs : Inside s) (h : s.rest = []) (fuel : Nat) (x : β) :
    unpackLoop io unpackField (fuel + 1) x s = .ok ((x, true), s) := by
  rw [unpackLoop, bind_of_ok (remaining_eq hs), h]
  rfl

end Turns

/-! ## Tags -/

theorem wire_type_lt (type : WireType) : type.value.toNat < 8 := by
  cases type <;> decide

theorem to_nat_tag {key : UInt32} (h : key.toNat < 2 ^ 29) (type : WireType) :
    (tag key type).toNat = key.toNat * 8 + type.value.toNat := by
  have hshift : (key <<< 3).toNat = key.toNat <<< 3 := by
    rw [UInt32.toNat_shiftLeft]
    show key.toNat <<< 3 % 2 ^ 32 = key.toNat <<< 3
    rw [Nat.shiftLeft_eq]
    exact Nat.mod_eq_of_lt (by omega)
  have hor := Nat.shiftLeft_add_eq_or_of_lt (show type.value.toNat < 2 ^ 3 from wire_type_lt type)
    key.toNat
  rw [tag, UInt32.toNat_or, hshift, ← hor, Nat.shiftLeft_eq]

/-- The key of a tag. -/
theorem tag_key {key : UInt32} (h : key.toNat < 2 ^ 29) (type : WireType) :
    tag key type >>> 3 = key := by
  have hlt := wire_type_lt type
  apply UInt32.toNat_inj.mp
  rw [UInt32.toNat_shiftRight, to_nat_tag h, Nat.shiftRight_eq_div_pow]
  show (key.toNat * 8 + type.value.toNat) / 8 = key.toNat
  omega

/-- The wire type of a tag. -/
theorem tag_type {key : UInt32} (h : key.toNat < 2 ^ 29) (type : WireType) :
    tag key type &&& 7 = type.value := by
  have hlt := wire_type_lt type
  apply UInt32.toNat_inj.mp
  rw [UInt32.toNat_and, to_nat_tag h]
  show (key.toNat * 8 + type.value.toNat) &&& 2 ^ 3 - 1 = type.value.toNat
  rw [Nat.and_two_pow_sub_one_eq_mod]
  omega

/-! ## Reading back -/

/-- The types that are no scalars. The elements of a container of scalars are not read back. -/
def Repeatable : {α : Type} → Element α → Prop
  | _, .string => True
  | _, .message _ => True
  | _, .fundamental _ => False
  | _, .unsignedInt => False
  | _, .signedInt => False

mutual
/-- The containers of scalars in a value, at any depth, are empty. -/
def ElementReadable : {α : Type} → Element α → α → Prop
  | _, .message m, value => MessageReadable m value
  | _, .fundamental _, _ => True
  | _, .unsignedInt, _ => True
  | _, .signedInt, _ => True
  | _, .string, _ => True

def MemberReadable : {α : Type} → Field α → α → Prop
  | _, .plain t, value => ElementReadable t value
  | _, .optional _, none => True
  | _, .optional t, some value => ElementReadable t value
  | _, .required _, none => True
  | _, .required t, some value => ElementReadable t value
  | _, .container t, values =>
      (Repeatable t ∨ values = []) ∧ ∀ value ∈ values, ElementReadable t value

def FieldsReadable : {ts : List Type} → Fields ts → Values ts → Prop
  | _, .nil, _ => True
  | _, .cons _ f fs, (value, values) => MemberReadable f value ∧ FieldsReadable fs values

/-- The containers of scalars in a message, at any depth, are empty. -/
def MessageReadable : {S : Type} → Message S → S → Prop
  | _, .reflect _ fields members, value => FieldsReadable fields (members value)
end

/-- Code that works on a part of a value. -/
def within (put : α → β) (body : Unpack (α × Bool)) : Unpack (β × Bool) := do
  let (x, error) ← body
  return (put x, error)

theorem within_within (put : β → γ) (put' : α → β) (body : Unpack (α × Bool)) :
    within put (within put' body) = within (put ∘ put') body := by
  funext s
  show ((body s >>= fun p => Except.ok ((put' p.1.1, p.1.2), p.2)) >>= fun p =>
    Except.ok ((put p.1.1, p.1.2), p.2)) = _
  cases h : body s with
  | error e =>
      show _ = (body s >>= fun p => Except.ok ((put (put' p.1.1), p.1.2), p.2))
      rw [h]
      rfl
  | ok p =>
      show _ = (body s >>= fun p => Except.ok ((put (put' p.1.1), p.1.2), p.2))
      rw [h]
      rfl

theorem within_self (body : Unpack (β × Bool)) : within (fun x => x) body = body := bind_pure body

theorem Takes.within {body : Unpack (α × Bool)} {bytes : Text} {x : α}
    (h : Takes body bytes (x, false)) (put : α → β) :
    Takes (within put body) bytes (put x, false) :=
  h.andThen (Takes.pure _)

theorem to_nat_key {i : Nat} (h : i < 2 ^ 29) : (UInt32.ofNat i).toNat = i :=
  UInt32.toNat_ofNat_of_lt' (by show i < 2 ^ 32; omega)

/-- Keys of different numbers are different. -/
theorem key_ne {i j : Nat} (hi : i < 2 ^ 29) (hj : j < 2 ^ 29) (h : i ≠ j) :
    UInt32.ofNat i ≠ UInt32.ofNat j := by
  intro heq
  have hnat := congrArg UInt32.toNat heq
  rw [to_nat_key hi, to_nat_key hj] at hnat
  exact h hnat

/-- Visits of the keys from a number on are visits of these fields, which are the last ones of what
`visit` works on. -/
def Visits (io : Varints) {ts : List Type} (fs : Fields ts) (i : Nat)
    (visit : UInt32 → UInt32 → β → Unpack (β × Bool)) (put : Values ts → β) : Prop :=
  ∀ j, i ≤ j → j < 2 ^ 29 → ∀ type x,
    visit (UInt32.ofNat j) type (put x) = within put (unpackFields io fs i (UInt32.ofNat j) type x)

theorem visits_self (io : Varints) {ts : List Type} (fields : Fields ts) :
    Visits io fields 0 (fun field type values => unpackFields io fields 0 field type values)
      fun values => values :=
  fun _ _ _ _ _ => (within_self _).symm

section Visits

variable {io : Varints} {ts : List Type} {name : Text} {f : Field α} {fs : Fields ts} {i : Nat}
  {visit : UInt32 → UInt32 → β → Unpack (β × Bool)} {put : Values (α :: ts) → β}

/-- The visit of the first of the fields. -/
theorem Visits.first (h : Visits io (.cons name f fs) i visit put) (hi : i < 2 ^ 29)
    (values : Values ts) (type : UInt32) (x : α) :
    visit (UInt32.ofNat i) type (put (x, values)) = within (fun x => put (x, values))
      (unpackMember io f name (UInt32.ofNat i) (UInt32.ofNat i) type x) := by
  rw [h i (Nat.le_refl i) hi, unpackFields, if_pos rfl]
  exact within_within put (fun x => (x, values)) _

/-- The visits of the others. -/
theorem Visits.rest (h : Visits io (.cons name f fs) i visit put) (value : α) :
    Visits io fs (i + 1) visit fun values => put (value, values) := by
  intro j hij hj type values
  rw [h j (by omega) hj, unpackFields, if_neg (key_ne hj (by omega) (by omega))]
  exact within_within put (fun values => (value, values)) _

end Visits

theorem Fundamental.size_pos (t : Fundamental α) : 0 < t.size.toNat := by
  rcases t.sized with h | h | h | h <;> rw [h] <;> decide

theorem length_le_flatMap {values : List α} {value : α} (h : value ∈ values) (f : α → Text) :
    (f value).length ≤ (values.flatMap f).length := by
  obtain ⟨front, back, rfl⟩ := List.append_of_mem h
  simp only [List.flatMap_append, List.flatMap_cons, List.length_append]
  omega

/-- What is delimited is no longer. -/
theorem delimited_lt {io : Varints} {bytes : Text} {n : Nat}
    (h : (delimited io bytes).length < n) : bytes.length < n := by
  rw [delimited, List.length_append] at h
  omega

theorem entry_lt {io : Varints} {key : UInt32} {type : WireType} {bytes : Text} {n : Nat}
    (h : (entry io key type bytes).length < n) : bytes.length < n := by
  rw [entry, List.length_append] at h
  omega

theorem element_lt {io : Varints} {t : Element α} {key : UInt32} {values : List α} {value : α}
    (hvalue : value ∈ values) {n : Nat}
    (h : (encodeMember io (.container t) key values).length < n) :
    (payload io t value).length < n := by
  have hle := length_le_flatMap hvalue fun value => entry io key (wireType t) (payload io t value)
  exact entry_lt (Nat.lt_of_le_of_lt hle h)

/-- The entries of a container, where each of them adds its element. -/
theorem turns_container {io : Varints} {t : Element α} {key : UInt32} (hkey : key.toNat < 2 ^ 29)
    {visit : UInt32 → UInt32 → β → Unpack (β × Bool)} {put : List α → β} {values : List α}
    (hvalues : ∀ value ∈ values, ∀ front, Takes (visit key (wireType t).value (put front))
      (payload io t value) (put (front ++ [value]), false)) (front : List α) :
    Turns io visit (values.flatMap fun value => entry io key (wireType t) (payload io t value))
      (put front) (put (front ++ values)) := by
  induction values generalizing front with
  | nil =>
      rw [List.append_nil]
      exact Turns.nil _
  | cons value values ih =>
      have hfirst : Turns io visit (entry io key (wireType t) (payload io t value)) (put front)
          (put (front ++ [value])) := by
        apply Turns.entry
        rw [tag_key hkey, tag_type hkey]
        exact hvalues value List.mem_cons_self front
      have hrest := ih (fun x hx => hvalues x (List.mem_cons_of_mem _ hx)) (front ++ [value])
      rw [List.append_assoc, List.singleton_append] at hrest
      exact hfirst.append hrest

/-- The loop of a message reads it where its turns make it of a default-constructed one. -/
theorem message_of_turns {io : Varints} {S : Type} {ts : List Type} {few : ts.length ≤ 2 ^ 29}
    {fields : Fields ts} {members : S ≃ Values ts} {bytes : Text} {value : S} {fill : Byte}
    (hsize : bytes.length < 2 ^ 32)
    (hturns : Turns io (fun field type values => unpackFields io fields 0 field type values) bytes
      (constructFields fill fields) (members value)) :
    ∃ s', unpackMessage io (.reflect few fields members)
      (constructMessage fill (.reflect few fields members)) (.new bytes) =
        .ok ((value, true), s') := by
  have hinside := inside_new hsize
  have hrest : (Datastream.new bytes).rest = bytes ++ [] := (List.append_nil bytes).symm
  obtain ⟨k, hk, hloop⟩ := hturns (.new bytes) [] hinside hrest
  have hfuel : (Datastream.new bytes).rest.length + 2 = bytes.length + 1 - k + 1 + k := by
    show bytes.length + 2 = _
    omega
  have hend := hloop (bytes.length + 1 - k + 1)
  rw [loop_end (hinside.skip hrest) (Datastream.rest_skip_append hrest), ← hfuel] at hend
  refine ⟨(Datastream.new bytes).skip bytes.length, ?_⟩
  simp only [unpackMessage, constructMessage, Equiv.apply_symm_apply]
  rw [bind_of_ok (show turns (.new bytes) = .ok (_, .new bytes) from rfl), bind_of_ok hend,
    Equiv.symm_apply_apply]
  rfl

mutual
/-- The payload of an entry is read back into a default-constructed target. -/
theorem takes_payload (io : Varints) {α : Type} (t : Element α) (value : α)
    (hset : ElementSet t value) (hread : ElementReadable t value)
    (hsize : (payload io t value).length < 2 ^ 32) (name : Text) (key : UInt32) (fill : Byte) :
    Takes (unpackElement io t name key key (wireType t).value (construct fill t))
      (payload io t value) (value, false) := by
  match t, value with
  | .fundamental t, value =>
      simp only [unpackElement, wireType, check_key_same, pure_bind]
      have hread := takes_extract
        (reads_read t.size_pos (t.toBytes (construct fill (.fundamental t))) (t.toBytes value))
      refine hread.andThen (takes_valid.andThen ?_)
      rw [t.of_to]
      exact Takes.pure _
  | .unsignedInt, value =>
      simp only [unpackElement, wireType, check_key_same, pure_bind]
      exact (takes_extract (io.reads_unsigned value)).andThen (Takes.pure _)
  | .signedInt, value =>
      simp only [unpackElement, wireType, check_key_same, pure_bind]
      exact (takes_extract (io.reads_signed value)).andThen (Takes.pure _)
  | .string, value =>
      simp only [unpackElement, wireType, check_key_same, pure_bind]
      exact (takes_chars io (delimited_lt hsize)).andThen (Takes.pure _)
  | .message m, value =>
      simp only [unpackElement, wireType, check_key_same, pure_bind]
      obtain ⟨s', hs'⟩ := message_unpacks io m value hset hread (delimited_lt hsize) fill
      exact (takes_sized io name (delimited_lt hsize) hs').andThen (Takes.pure _)

/-- The payload of an entry of a container is read back as one more element. -/
theorem takes_back (io : Varints) {α : Type} (t : Element α) (value : α)
    (hset : ElementSet t value) (hrepeatable : Repeatable t) (hread : ElementReadable t value)
    (hsize : (payload io t value).length < 2 ^ 32) (name : Text) (key : UInt32) :
    ∀ front : List α, Takes (unpackBack io t name key key (wireType t).value front)
      (payload io t value) (front ++ [value], false) := by
  intro front
  match t, value, front with
  | .string, value, front =>
      simp only [unpackBack, wireType, check_key_same, pure_bind]
      exact (takes_chars io (delimited_lt hsize)).andThen (Takes.pure _)
  | .message m, value, front =>
      simp only [unpackBack, wireType, check_key_same, pure_bind]
      obtain ⟨s', hs'⟩ := message_unpacks io m value hset hread (delimited_lt hsize) 0
      exact (takes_sized io name (delimited_lt hsize) hs').andThen (Takes.pure _)
  | .fundamental t, value, front => exact absurd hrepeatable id
  | .unsignedInt, value, front => exact absurd hrepeatable id
  | .signedInt, value, front => exact absurd hrepeatable id

/-- The loop reads back the entries of a field, which is a part of what it works on. -/
theorem turns_member (io : Varints) {α : Type} (f : Field α) (value : α) (hset : MemberSet f value)
    (hread : MemberReadable f value) (key : UInt32)
    (hsize : (encodeMember io f key value).length < 2 ^ 32) (hkey : key.toNat < 2 ^ 29)
    (name : Text) (fill : Byte) {β : Type} (visit : UInt32 → UInt32 → β → Unpack (β × Bool)) :
    ∀ put : α → β, (∀ type x, visit key type (put x) =
      within put (unpackMember io f name key key type x)) →
    Turns io visit (encodeMember io f key value) (put (constructMember fill f)) (put value) := by
  match f, value with
  | .plain t, value =>
      intro put hput
      have htakes := takes_payload io t value hset hread (entry_lt hsize) name key fill
      apply Turns.entry
      rw [tag_key hkey, tag_type hkey, hput]
      exact htakes.within put
  | .optional t, none => exact fun _ _ => Turns.nil _
  | .optional t, some value =>
      intro put hput
      have htakes := takes_payload io t value hset hread (entry_lt hsize) name key 0
      apply Turns.entry
      rw [tag_key hkey, tag_type hkey, hput]
      exact (htakes.within some).within put
  | .required t, none => exact absurd hset id
  | .required t, some value =>
      intro put hput
      have htakes := takes_payload io t value hset hread (entry_lt hsize) name key 0
      apply Turns.entry
      rw [tag_key hkey, tag_type hkey, hput]
      exact (htakes.within some).within put
  | .container t, values =>
      intro put hput
      refine turns_container hkey (fun value hvalue front => ?_) []
      have hrepeatable := hread.1.resolve_right (List.ne_nil_of_mem hvalue)
      have htakes := takes_back io t value (hset value hvalue) hrepeatable (hread.2 value hvalue)
        (element_lt hvalue hsize) name key front
      rw [hput]
      exact htakes.within put

/-- The loop reads back the entries of some fields, which are the last ones of what it works on. -/
theorem turns_fields (io : Varints) {ts : List Type} (fs : Fields ts) (values : Values ts)
    (hset : FieldsSet fs values) (hread : FieldsReadable fs values) (i : Nat)
    (hsize : (encodeFields io fs i values).length < 2 ^ 32) (hfew : i + ts.length ≤ 2 ^ 29)
    (fill : Byte) {β : Type} (visit : UInt32 → UInt32 → β → Unpack (β × Bool)) :
    ∀ put : Values ts → β, Visits io fs i visit put →
    Turns io visit (encodeFields io fs i values) (put (constructFields fill fs)) (put values) := by
  match fs, values with
  | .nil, _ => exact fun put _ => Turns.nil _
  | .cons name f fs, (value, values) =>
      intro put hput
      simp only [encodeFields, List.length_append] at hsize ⊢
      rw [List.length_cons] at hfew
      have hkey := to_nat_key (show i < 2 ^ 29 by omega)
      have hfirst := turns_member io f value hset.1 hread.1 (UInt32.ofNat i) (by omega) (by omega)
        name fill visit (fun x => put (x, constructFields fill fs)) (hput.first (by omega) _)
      have hrest := turns_fields io fs values hset.2 hread.2 (i + 1) (by omega) (by omega) fill
        visit
        (fun xs => put (value, xs)) (hput.rest value)
      exact hfirst.append hrest

/-- A message is read back from its encoding. -/
theorem message_unpacks (io : Varints) {S : Type} (m : Message S) (value : S)
    (hset : MessageSet m value) (hread : MessageReadable m value)
    (hsize : (encodeMessage io m value).length < 2 ^ 32) (fill : Byte) :
    ∃ s', unpackMessage io m (constructMessage fill m) (.new (encodeMessage io m value)) =
      .ok ((value, true), s') := by
  match m, value with
  | .reflect few fields members, value =>
      have hturns := turns_fields io fields (members value) hset hread 0 hsize
        (by omega) fill (fun field type values => unpackFields io fields 0 field type values)
        (fun values => values) (visits_self io fields)
      exact message_of_turns hsize hturns
end

/-! ## The round trip -/

/-- Unpacking undoes what has been encoded, which may be nothing. -/
theorem unpack_encoded (io : Varints) {S : Type} (m : Message S) (v : S) (hset : MessageSet m v)
    (hread : MessageReadable m v) (hsize : (encodeMessage io m v).length < 2 ^ 32) (fill : Byte) :
    unpack io m (encodeMessage io m v) (constructMessage fill m) = .ok (v, true) := by
  obtain ⟨s', hs'⟩ := message_unpacks io m v hset hread hsize fill
  generalize encodeMessage io m v = bytes at hsize hs'
  cases bytes with
  | nil =>
      -- without any entry the message is a default-constructed one
      cases m with
      | reflect few fields members =>
          have hloop : ∀ fuel, unpackLoop io
              (fun field type values => unpackFields io fields 0 field type values) (fuel + 1)
              (members (constructMessage fill (.reflect few fields members))) (.new []) =
                .ok ((_, true), .new []) :=
            fun fuel => loop_end (inside_new hsize) rfl fuel _
          rw [unpackMessage, bind_of_ok (show turns (.new []) = .ok (1 + 1, .new []) from rfl),
            bind_of_ok (hloop 1)] at hs'
          simp only [Equiv.symm_apply_apply] at hs'
          rw [unpack, if_pos List.length_nil]
          exact congrArg Except.ok (congrArg Prod.fst (Except.ok.inj hs'))
  | cons b bytes =>
      rw [unpack, if_neg (by simp), to_nat_size hsize, List.take_length, hs']

/-- What is packed into any buffer is unpacked from it into a default-constructed message, where
its encoding is shorter than 2^32 bytes. -/
theorem message_round_trip (io : Varints) {S : Type} (m : Message S) (v : S)
    (hset : MessageSet m v) (hread : MessageReadable m v)
    (hsize : (encodeMessage io m v).length < 2 ^ 32) (msg : Text) (fill : Byte) :
    ∃ bytes, pack io m msg v = (bytes, none) ∧
      unpack io m bytes (constructMessage fill m) = .ok (v, true) :=
  ⟨_, pack_encodes io m msg hset hsize, unpack_encoded io m v hset hread hsize fill⟩

/-- Base-128 codecs: an `unsigned_int` is written as its number, and a `signed_int` as that of the
`uint32_t` with the same bits. -/
def Varints.base128 [Machine] : Varints where
  unsigned n := Base128.code n.toNat
  signed n := Base128.code n.toUInt32.toNat
  getUnsigned := unpackUnsigned
  getSigned := do
    let n ← unpackUnsigned
    return n.toInt32
  reads_unsigned := Raw.reads_unsigned
  reads_signed n := (Raw.reads_unsigned n.toUInt32).map UInt32.toInt32

/-- `char` -/
def char : Fundamental Byte where
  size := 1
  sized := Or.inl rfl
  toBytes b := ⟨[b], rfl⟩
  ofBytes v := v.head
  of_to _ := rfl

/-- A phone of some type. -/
def phone : Message (Byte × Unit) :=
  .reflect (by decide) (.cons (str "type") (.plain (.fundamental char)) .nil) (Equiv.refl _)

/-- A person with a name and perhaps an email, as in the documentation, and some phones. -/
def person : Message (Option Text × Option Text × List (Byte × Unit) × Unit) :=
  .reflect (by decide) (.cons (str "name") (.required .string)
    (.cons (str "email") (.optional .string)
      (.cons (str "phone") (.container (.message phone)) .nil))) (Equiv.refl _)

/-- A name and two phones. -/
def somebody : Option Text × Option Text × List (Byte × Unit) × Unit :=
  (some (str "A"), none, [(1, ()), (2, ())], ())

theorem message_round_trip_person :
    letI := Machine.x86
    ∃ bytes, pack .base128 person [] somebody = (bytes, none) ∧
      unpack .base128 person bytes (constructMessage 0 person) = .ok (somebody, true) :=
  letI := Machine.x86
  message_round_trip .base128 person somebody
    ⟨trivial, trivial, fun _ _ => ⟨trivial, trivial⟩, trivial⟩
    ⟨trivial, trivial, ⟨Or.inl trivial, fun _ _ => ⟨trivial, trivial⟩⟩, trivial⟩
    (by simp [person, phone, somebody, encodeMessage, encodeFields, encodeMember, entry, payload,
      delimited, wireType, Varints.base128, tag, WireType.value, str, Base128.code_small, char,
      getWireType])
    [] 0

/-- The messages with one string. -/
def note : Message (Text × Unit) :=
  .reflect (by decide) (.cons (str "text") (.plain .string) .nil) (Equiv.refl _)

/-- The size of a string of 2^32 bytes is written as zero, and nothing behind it. -/
theorem pack_string_wraps (io : Varints) {σ : Type} [OutStream σ] (s : σ) {value : Text}
    (h : value.length = 2 ^ 32) : packString io s value = packString io s [] := by
  have hsize : UInt32.ofNat value.length = 0 := by
    rw [h]
    rfl
  rw [packString, packString, hsize, List.length_nil, List.take_nil]
  rfl

/-- A string of 2^32 bytes comes back empty. -/
theorem long_string_lost :
    ¬ ∀ (io : Varints) (S : Type) (m : Message S) (v : S), MessageSet m v → MessageReadable m v →
      ∀ (msg : Text) (fill : Byte), ∃ bytes, pack io m msg v = (bytes, none) ∧
        unpack io m bytes (constructMessage fill m) = .ok (v, true) := by
  intro h
  let := Machine.x86
  obtain ⟨value, hvalue⟩ : ∃ value : Text, value.length = 2 ^ 32 :=
    ⟨List.replicate (2 ^ 32) 0, List.length_replicate⟩
  obtain ⟨bytes, hpack, hunpack⟩ := h .base128 _ note (value, ()) ⟨trivial, trivial⟩
    ⟨trivial, trivial⟩ [] 0
  have hsame : pack .base128 note [] (value, ()) = pack .base128 note [] ([], ()) := by
    simp only [pack, packsize, packMessage, packFields, packMember, packField, note,
      Equiv.refl_apply, pack_string_wraps _ _ hvalue]
  have hsize : (encodeMessage .base128 note ([], ())).length < 2 ^ 32 := by
    simp [note, encodeMessage, encodeFields, encodeMember, entry, payload, delimited, wireType,
      Varints.base128, tag, WireType.value, Base128.code_small]
  have hempty : pack .base128 note [] ([], ()) = (encodeMessage .base128 note ([], ()), none) :=
    pack_encodes _ note [] ⟨trivial, trivial⟩ hsize
  have hbytes := congrArg Prod.fst (hpack.symm.trans (hsame.trans hempty))
  subst hbytes
  rw [unpack_encoded .base128 note ([], ()) ⟨trivial, trivial⟩ ⟨trivial, trivial⟩ hsize] at hunpack
  have hnil : ([] : Text) = value := congrArg (fun p => p.1.1) (Except.ok.inj hunpack)
  rw [← hnil] at hvalue
  exact absurd hvalue (by decide)

end BoostRpc.ProtocolBuffer
