import BoostRpc.ProtocolBuffer.RepeatedScalars

/-!
# Parameter sequences

`unpack_message` of a `boost::fusion` sequence, whose elements `helper::unpack_field` looks for by
recursion on an index. A call of it that hands the key on to the next index does not hand the result
back: it ends without a `return`, and what it returns is left to `unspecified`.
`sequences_right_iff` says which keys are treated right, and which sequences come back.
-/

namespace BoostRpc.ProtocolBuffer

open Raw

variable {α β γ : Type}

/-! ## Sequences -/

/-- The types of the elements of a sequence. -/
inductive Part : Type → Type 1 where
  | plain {α : Type} (t : Element α) : Part α
  | optional {α : Type} (t : Part α) : Part (Option α)

/-- The elements of a sequence. -/
inductive Parts : List Type → Type 1 where
  | nil : Parts []
  | cons {α : Type} {ts : List Type} (t : Part α) (parts : Parts ts) : Parts (α :: ts)

/-- The type of an element, as the packer takes it. -/
def Part.packable : {α : Type} → Part α → Packable α
  | _, .plain t => t.packable
  | _, .optional t => .optional t.packable

def Parts.packable : {ts : List Type} → Parts ts → Elements ts
  | _, .nil => .nil
  | _, .cons t parts => .cons t.packable parts.packable

/-- The sequence, as the packer takes it. -/
def Parts.body {ts : List Type} (parts : Parts ts) : Body (Values ts) :=
  .sequence parts.packable (Equiv.refl _)

/-- A default-constructed element; `fill` is the byte that the memory of scalars holds before. -/
def Part.construct (fill : Byte) : {α : Type} → Part α → α
  | _, .plain t => ProtocolBuffer.construct fill t
  | _, .optional _ => none

/-- A default-constructed sequence. -/
def Parts.construct (fill : Byte) : {ts : List Type} → Parts ts → Values ts
  | _, .nil => ()
  | _, .cons t parts => (t.construct fill, parts.construct fill)

/-! ## Unpacking -/

/-- `ufv.unpack( value, 0, key )`, where the visitor `ufv` has been made for this key: the element
has no name. -/
def Part.unpack (io : Varints) : {α : Type} → Part α → UInt32 → UInt32 → α → Unpack (α × Bool)
  | _, .plain t, key, type, value => unpackElement io t [] key key type value
  | _, .optional t, key, type, value => do
      let (value, error) ← t.unpack io key type (value.getD (t.construct 0))
      return (some value, error)

/-- `ufv.unpack( boost::fusion::at_c<i>( seq ), 0, key )`: the sequence afterwards, and
`ufv.error`. -/
def Parts.unpackAt (io : Varints) : {ts : List Type} → Parts ts → Nat → UInt32 → UInt32 →
    Values ts → Unpack (Values ts × Bool)
  -- there is no such element
  | _, .nil, _, _, _, _ => throw (.fault .illFormed)
  | _, .cons t _, 0, key, type, (value, values) => do
      let (value, error) ← t.unpack io key type value
      return ((value, values), error)
  | _, .cons _ parts, i + 1, key, type, (value, values) => do
      let (values, error) ← parts.unpackAt io i key type values
      return ((value, values), error)

/-- `helper<Sequence, Index>::unpack_field`: the sequence afterwards, and what is returned, if
anything is. -/
def Parts.unpackField (io : Varints) {ts : List Type} (parts : Parts ts) :
    Nat → UInt32 → UInt32 → Values ts → Unpack (Values ts × Option Bool)
  | 0, _, _, values => return (values, some false)
  | index + 1, key, type, values =>
      if UInt32.ofNat index = key then do
        let (values, _) ← parts.unpackAt io index key type values
        return (values, some true)
      else do
        let (values, _) ← parts.unpackField io index key type values
        -- the end of the function
        return (values, none)

/-- What a call evaluates to that may not have returned anything. -/
def evaluate (unspecified : Datastream → Bool) (returned : Option Bool) : Unpack Bool :=
  fun s => .ok (returned.getD (unspecified s), s)

/-- The body of the loop behind the key, with whether `unpack_message` returns `false` in it. -/
def Parts.turn (io : Varints) (unspecified : Datastream → Bool) {ts : List Type} (parts : Parts ts)
    (key type : UInt32) (values : Values ts) : Unpack (Values ts × Bool) := do
  let (values, returned) ← parts.unpackField io ts.length key type values
  let unpacked ← evaluate unspecified returned
  return (values, !unpacked)

/-- `unpack_message` of a sequence: the sequence afterwards, and what is returned. -/
def Parts.unpackMessage (io : Varints) (unspecified : Datastream → Bool) {ts : List Type}
    (parts : Parts ts) (values : Values ts) : Unpack (Values ts × Bool) := do
  let fuel ← turns
  unpackLoop io (parts.turn io unspecified) fuel values

/-! ## Looking for an element -/

section Helper

variable {io : Varints} {ts : List Type} (parts : Parts ts)

/-- The element of the key is the one of the index. -/
theorem helper_here {index : Nat} {key : UInt32} (h : UInt32.ofNat index = key) (type : UInt32)
    (values : Values ts) :
    parts.unpackField io (index + 1) key type values =
      parts.unpackAt io index key type values >>= fun p => pure (p.1, some true) := by
  rw [Parts.unpackField, if_pos h]

theorem helper_next {index : Nat} {key : UInt32} (h : UInt32.ofNat index ≠ key) (type : UInt32)
    (values : Values ts) :
    parts.unpackField io (index + 1) key type values =
      parts.unpackField io index key type values >>= fun p => pure (p.1, none) := by
  rw [Parts.unpackField, if_neg h]

/-- The element of the key is below: it is decoded, and nothing is returned. -/
theorem helper_below {index : Nat} {key : UInt32} (h : key.toNat < index) (hindex : index < 2 ^ 32)
    (type : UInt32) (values : Values ts) :
    parts.unpackField io (index + 1) key type values =
      parts.unpackAt io key.toNat key type values >>= fun p => pure (p.1, none) := by
  have hne : UInt32.ofNat index ≠ key := by
    rintro rfl
    rw [UInt32.toNat_ofNat_of_lt' hindex] at h
    exact Nat.lt_irrefl _ h
  rw [helper_next parts hne]
  cases index with
  | zero => exact absurd h (Nat.not_lt_zero _)
  | succ index =>
      by_cases hhere : key.toNat = index
      · rw [helper_here parts (by rw [← hhere, UInt32.ofNat_toNat]), bind_assoc, ← hhere]
        simp only [pure_bind]
      · rw [helper_below (by omega) (by omega), bind_assoc]
        simp only [pure_bind]

/-- There is no element of the key below: nothing is decoded, and nothing returned. -/
theorem helper_above {index : Nat} {key : UInt32} (h : index < key.toNat) (type : UInt32)
    (values : Values ts) :
    parts.unpackField io (index + 1) key type values = pure (values, none) := by
  have hne : UInt32.ofNat index ≠ key := by
    rintro rfl
    rw [UInt32.toNat_ofNat'] at h
    exact absurd h (Nat.not_lt.mpr (Nat.mod_le _ _))
  rw [helper_next parts hne]
  cases index with
  | zero => rfl
  | succ index =>
      rw [helper_above (by omega)]
      rfl

/-- What the call for all elements is to do: to decode the element of the key, and to return whether
this has gone well. -/
def Parts.lookUp (io : Varints) (key type : UInt32) (values : Values ts) :
    Unpack (Values ts × Option Bool) :=
  if key.toNat < ts.length then do
    let (values, error) ← parts.unpackAt io key.toNat key type values
    return (values, some !error)
  else return (values, some false)

/-- The call for all elements does right: there are none, or there is one of the key, whose visitor
throws, or which is the last one and is decoded without an error. -/
def Parts.LookedUp (io : Varints) (key type : UInt32) (values : Values ts) (s : Datastream) :
    Prop :=
  ts.length = 0 ∨ key.toNat < ts.length ∧
    ((∃ e, parts.unpackAt io key.toNat key type values s = .error e) ∨
      key.toNat + 1 = ts.length ∧
        ∃ values' s', parts.unpackAt io key.toNat key type values s = .ok ((values', false), s'))

/-- Where the visitor throws, the call for all elements does. -/
theorem helper_throws {index : Nat} {key type : UInt32} {values : Values ts} {s : Datastream}
    {e : Failure} (hkey : key.toNat < index + 1) (hindex : index < 2 ^ 32)
    (h : parts.unpackAt io key.toNat key type values s = .error e) :
    parts.unpackField io (index + 1) key type values s = .error e := by
  by_cases hlast : index = key.toNat
  · rw [hlast, helper_here parts UInt32.ofNat_toNat, bind_of_error h]
  · rw [helper_below parts (by omega) hindex, bind_of_error h]

/-- Where it does not, `true` is returned for the last element, and nothing for another one. -/
theorem helper_decodes {index : Nat} {key type : UInt32} {values values' : Values ts}
    {s s' : Datastream} {error : Bool} (hkey : key.toNat < index + 1) (hindex : index < 2 ^ 32)
    (h : parts.unpackAt io key.toNat key type values s = .ok ((values', error), s')) :
    parts.unpackField io (index + 1) key type values s =
      .ok ((values', if key.toNat = index then some true else none), s') := by
  by_cases hlast : index = key.toNat
  · rw [hlast, helper_here parts UInt32.ofNat_toNat, bind_of_ok h, if_pos rfl]
    rfl
  · rw [helper_below parts (by omega) hindex, bind_of_ok h, if_neg (Ne.symm hlast)]
    rfl

theorem looked_up_iff (few : ts.length ≤ 2 ^ 29) (key type : UInt32) (values : Values ts)
    (s : Datastream) :
    parts.unpackField io ts.length key type values s = parts.lookUp io key type values s ↔
      parts.LookedUp io key type values s := by
  rw [Parts.LookedUp, Parts.lookUp]
  generalize ts.length = n at few ⊢
  cases n with
  | zero =>
      rw [if_neg (Nat.not_lt_zero _)]
      exact ⟨fun _ => .inl rfl, fun _ => rfl⟩
  | succ index =>
      by_cases hkey : key.toNat < index + 1
      · rw [if_pos hkey]
        cases hat : parts.unpackAt io key.toNat key type values s with
        | error e =>
            rw [helper_throws parts hkey (by omega) hat, bind_of_error hat]
            exact ⟨fun _ => .inr ⟨hkey, .inl ⟨e, rfl⟩⟩, fun _ => rfl⟩
        | ok p =>
            obtain ⟨⟨values', error⟩, s'⟩ := p
            rw [helper_decodes parts hkey (by omega) hat, bind_of_ok hat]
            refine ⟨fun h => ?_, ?_⟩
            · -- what is returned tells the last element
              have hreturned : (if key.toNat = index then some true else none) = some !error :=
                congrArg (fun p => p.2) (congrArg Prod.fst (Except.ok.inj h))
              split at hreturned
              · rename_i hlast
                cases error with
                | false => exact .inr ⟨hkey, .inr ⟨by omega, values', s', rfl⟩⟩
                | true => cases hreturned
              · cases hreturned
            · rintro (h | ⟨-, ⟨e, he⟩ | ⟨hlast, values'', s'', hat'⟩⟩)
              · omega
              · cases he
              · cases hat'
                rw [if_pos (by omega)]
                rfl
      · rw [if_neg hkey, helper_above parts (by omega)]
        refine ⟨fun h => ?_, ?_⟩
        · cases h
        · rintro (h | ⟨h, -⟩)
          · omega
          · exact absurd h hkey

end Helper

/-! ## The encoding -/

/-- An entry is written for the element. -/
def Part.Written : {α : Type} → Part α → α → Prop
  | _, .plain _, _ => True
  | _, .optional _, none => False
  | _, .optional t, some value => t.Written value

/-- The element is an optional that is not set. -/
def Part.Unset : {α : Type} → Part α → α → Prop
  | _, .plain _, _ => False
  | _, .optional _, none => True
  | _, .optional _, some _ => False

/-- The containers of scalars in the element are empty. -/
def Part.Readable : {α : Type} → Part α → α → Prop
  | _, .plain t, value => ElementReadable t value
  | _, .optional _, none => True
  | _, .optional t, some value => t.Readable value

/-- The sequence comes back: the last element is an optional that is not set, or it is written and
without scalars in containers, and all others are optionals that are not set. -/
def Parts.Restorable : {ts : List Type} → Parts ts → Values ts → Prop
  | _, .nil, _ => True
  | _ :: ts, .cons t parts, (value, values) =>
      (t.Unset value ∨ ts = [] ∧ t.Written value ∧ t.Readable value) ∧ parts.Restorable values

/-- The entry of an element, if it has one. -/
def Part.encode (io : Varints) : {α : Type} → Part α → UInt32 → α → Text
  | _, .plain t, key, value => entry io key (wireType t) (payload io t value)
  | _, .optional _, _, none => []
  | _, .optional t, key, some value => t.encode io key value

/-- The entries of the elements from an index on. -/
def Parts.encode (io : Varints) : {ts : List Type} → Parts ts → Nat → Values ts → Text
  | _, .nil, _, _ => []
  | _, .cons t parts, i, (value, values) =>
      t.encode io (UInt32.ofNat i) value ++ parts.encode io (i + 1) values

section Encoding

variable (io : Varints) {σ : Type} [OutStream σ] {limit : Nat} {R : σ → Text → Prop}

theorem part_writes {α : Type} (t : Part α) (h : Follows limit R) (hlimit : limit < 2 ^ 32)
    (key : UInt32) {value : α} (hset : ¬ t.packable.Missing value) :
    Writes limit R (fun s => t.packable.packField io s key value) (t.encode io key value) := by
  match t, value with
  | .plain t, value =>
      intro s bytes hs hfits
      have hwritten := pack_field_follows io t h hlimit hs key ((element_set_iff t value).mpr hset)
        hfits
      rw [pack_field_packable] at hwritten
      exact hwritten
  | .optional t, none => exact .nothing
  | .optional t, some value => exact part_writes t h hlimit key hset

theorem parts_write {ts : List Type} (parts : Parts ts) (h : Follows limit R)
    (hlimit : limit < 2 ^ 32) (i : Nat) {values : Values ts}
    (hset : ¬ parts.packable.Missing values) :
    Writes limit R (fun s => parts.packable.visitSequence io (UInt32.ofNat i) s values)
      (parts.encode io i values) := by
  match parts, values with
  | .nil, _ => exact .nothing
  | .cons t parts, (value, values) =>
      obtain ⟨hvalue, hvalues⟩ := not_or.mp hset
      have hrest := parts_write parts h hlimit (i + 1) hvalues
      rw [UInt32.ofNat_add] at hrest
      exact (part_writes io t h hlimit _ hvalue).bind hrest

end Encoding

variable (io : Varints)

/-- The entries are the encoding of the sequence. -/
theorem encode_parts {ts : List Type} (parts : Parts ts) {values : Values ts}
    (hset : ¬ parts.packable.Missing values) (hsize : (parts.encode io 0 values).length < 2 ^ 32) :
    parts.body.encode io values = parts.encode io 0 values := by
  obtain ⟨s, hs, rfl⟩ := parts_write io parts (text_follows _) hsize 0 hset [] [] rfl
    (Nat.le_of_eq (Nat.zero_add _))
  have htext : parts.body.pack io ([] : Text) values = .ok (parts.body.encode io values) :=
    pack_body_text io parts.body hset
  exact Except.ok.inj (htext.symm.trans hs)

/-! ## Elements -/

theorem part_unwritten {α : Type} {t : Part α} {value : α} (h : ¬ t.Written value) (key : UInt32) :
    t.encode io key value = [] := by
  match t, value with
  | .plain t, value => exact absurd trivial h
  | .optional t, none => rfl
  | .optional t, some value => exact part_unwritten (t := t) h key

theorem unset_unwritten {t : Part α} {value : α} (h : t.Unset value) : ¬ t.Written value := by
  match t, value with
  | .plain t, value => exact absurd h id
  | .optional t, none => exact id
  | .optional t, some value => exact absurd h id

theorem unset_construct {t : Part α} {value : α} (h : t.Unset value) (fill : Byte) :
    t.construct fill = value := by
  match t, value with
  | .plain t, value => exact absurd h id
  | .optional t, none => rfl
  | .optional t, some value => exact absurd h id

/-- Without an entry an element stays default-constructed, which an optional that is set is not. -/
theorem unwritten_construct {t : Part α} {fill : Byte} (h : ¬ t.Written (t.construct fill)) :
    t.Unset (t.construct fill) := by
  match t with
  | .plain t => exact absurd trivial h
  | .optional t => trivial

/-- The entry of an element, which is read back where no scalars are in containers, and refused
otherwise. -/
theorem part_entry {α : Type} {t : Part α} {value : α} (hset : ¬ t.packable.Missing value)
    (hwritten : t.Written value) {key : UInt32} (hsize : (t.encode io key value).length < 2 ^ 32)
    (fill : Byte) :
    ∃ type bytes, t.encode io key value = entry io key type bytes ∧
      (t.Readable value →
        Takes (t.unpack io key type.value (t.construct fill)) bytes (value, false)) ∧
      (¬ t.Readable value → Mismatches (t.unpack io key type.value (t.construct fill)) bytes) := by
  match t, value with
  | .plain t, value =>
      have hset' := (element_set_iff t value).mpr hset
      exact ⟨wireType t, payload io t value, rfl,
        fun hread => takes_payload io t value hset' hread (entry_lt hsize) [] key fill,
        fun hread => payload_mismatches io t value hset' hread (entry_lt hsize) [] key fill⟩
  | .optional t, none => exact absurd hwritten id
  | .optional t, some value =>
      obtain ⟨type, bytes, hentry, htakes, hmismatches⟩ := part_entry (t := t) hset hwritten hsize 0
      exact ⟨type, bytes, hentry, fun hread => (htakes hread).within some,
        fun hread => (hmismatches hread).bind _⟩

/-! ## The loop -/

/-- The turn for the last element does not look at `ufv.error`. -/
theorem turn_last {ts : List Type} (parts : Parts ts) (unspecified : Datastream → Bool)
    {index : Nat} (hlength : ts.length = index + 1) (type : UInt32) (values : Values ts) :
    parts.turn io unspecified (UInt32.ofNat index) type values =
      parts.unpackAt io index (UInt32.ofNat index) type values >>= fun p => pure (p.1, false) := by
  rw [Parts.turn, hlength, helper_here parts rfl, bind_assoc]
  rfl

/-- Where the end of the function makes a `false`, the turn for any other key ends the loop. -/
theorem results_turn {ts : List Type} (parts : Parts ts) {index : Nat}
    (hlength : ts.length = index + 1) (few : ts.length ≤ 2 ^ 29) {key : UInt32}
    (hkey : key.toNat ≠ index) (type : UInt32) (values : Values ts) :
    Results (fun p => p.2 = true) (parts.turn io (fun _ => false) key type values) := by
  have hnothing :
      Results (fun p => p.2 = none) (parts.unpackField io ts.length key type values) := by
    rw [hlength]
    by_cases hbelow : key.toNat < index
    · rw [helper_below parts hbelow (by omega)]
      exact Results.behind _ fun _ => .pure rfl
    · rw [helper_above parts (by omega)]
      exact .pure rfl
  refine hnothing.bind ?_
  rintro ⟨values', returned⟩ rfl s p s' hp
  cases hp
  rfl

/-- What every turn that goes on preserves, the loop preserves where it gets to the end. -/
theorem Results.read {P : β → Prop} {unpackField : UInt32 → UInt32 → β → Unpack (β × Bool)}
    (h : ∀ field type x, P x → Results (fun p => p.2 = false → P p.1) (unpackField field type x))
    (fuel : Nat) {x : β} (hx : P x) :
    Results (fun p => p.2 = true → P p.1) (unpackLoop io unpackField fuel x) := by
  induction fuel generalizing x with
  | zero => exact .throw _ _
  | succ fuel ih =>
      refine Results.behind remaining fun left => ?_
      split
      · exact .pure fun _ => hx
      refine Results.behind _ fun tkey => Results.behind valid fun inside => ?_
      split
      · exact .pure fun h => by cases h
      refine (h _ _ x hx).bind ?_
      rintro ⟨value, error⟩ hp
      cases error with
      | true => exact .pure fun h => by cases h
      | false => exact ih (hp rfl)

/-- All elements but the last one are as they have been made. -/
def Parts.Untouched (fill : Byte) : {ts : List Type} → Parts ts → Values ts → Prop
  | _, .nil, _ => True
  | _ :: ts, .cons t parts, (value, values) =>
      (ts = [] ∨ value = t.construct fill) ∧ parts.Untouched fill values

theorem untouched_construct (fill : Byte) {ts : List Type} (parts : Parts ts) :
    parts.Untouched fill (parts.construct fill) := by
  match parts with
  | .nil => trivial
  | .cons t parts => exact ⟨.inr rfl, untouched_construct fill parts⟩

/-- The turn for the last element changes this one only. -/
theorem results_at {fill : Byte} {ts : List Type} (parts : Parts ts) {index : Nat}
    (hlength : ts.length = index + 1) (key type : UInt32) {values : Values ts}
    (h : parts.Untouched fill values) :
    Results (fun p => parts.Untouched fill p.1) (parts.unpackAt io index key type values) := by
  match parts, index, values with
  | .nil, _, _ => exact .throw _ _
  | .cons t parts, 0, (value, values) =>
      have hnil := List.eq_nil_of_length_eq_zero (Nat.succ.inj hlength)
      exact Results.behind _ fun _ => .pure ⟨.inl hnil, h.2⟩
  | .cons t parts, index + 1, (value, values) =>
      exact (results_at parts (Nat.succ.inj hlength) key type h.2).bind fun _ hp => .pure ⟨h.1, hp⟩

/-- Where the end of the function makes a `false`, the loop gets to the end of the packed form only
if it has touched no element but the last one. -/
theorem results_sequence {fill : Byte} {ts : List Type} (parts : Parts ts)
    (few : ts.length ≤ 2 ^ 29) (fuel : Nat) {values : Values ts}
    (h : parts.Untouched fill values) :
    Results (fun p => p.2 = true → parts.Untouched fill p.1)
      (unpackLoop io (parts.turn io fun _ => false) fuel values) := by
  refine Results.read io (fun key type values h => ?_) fuel h
  generalize hn : ts.length = n at few
  cases n with
  | zero =>
      rw [Parts.turn, hn]
      exact .pure fun h => by cases h
  | succ index =>
      by_cases hkey : key.toNat = index
      · rw [← UInt32.ofNat_toNat (x := key), hkey, turn_last io parts _ hn]
        exact (results_at io parts hn _ type h).bind fun _ hp => .pure fun _ => hp
      · have hends := results_turn io parts hn (by omega) hkey type values
        intro s p s' hs hp
        cases (hends s p s' hs).symm.trans hp

/-- The loop reads back a sequence in which only the last element is written. -/
theorem turns_parts {ts : List Type} (parts : Parts ts) {values : Values ts}
    (hset : ¬ parts.packable.Missing values) (h : parts.Restorable values) (i : Nat)
    (hsize : (parts.encode io i values).length < 2 ^ 32) (hfew : i + ts.length ≤ 2 ^ 29)
    (fill : Byte) {β : Type} {visit : UInt32 → UInt32 → β → Unpack (β × Bool)} :
    ∀ put : Values ts → β,
    (∀ m, ts.length = m + 1 → ∀ type xs, visit (UInt32.ofNat (i + m)) type (put xs) =
      parts.unpackAt io m (UInt32.ofNat (i + m)) type xs >>= fun p => pure (put p.1, false)) →
    Turns io visit (parts.encode io i values) (put (parts.construct fill)) (put values) := by
  match parts, values with
  | .nil, _ => exact fun _ _ => Turns.nil _
  | .cons t parts, (value, values) =>
      intro put hput
      obtain ⟨hvalue, hvalues⟩ := not_or.mp hset
      rw [List.length_cons] at hfew
      rcases h.1 with hunset | ⟨rfl, hwritten, hread⟩
      · -- nothing is written for an element in front of the last one
        rw [Parts.encode, part_unwritten io (unset_unwritten hunset), List.nil_append] at hsize ⊢
        rw [Parts.construct, unset_construct hunset]
        refine turns_parts parts hvalues h.2 (i + 1) hsize (by omega) fill
          (fun xs => put (value, xs)) fun m hm type xs => ?_
        rw [show i + 1 + m = i + (m + 1) by omega,
          hput (m + 1) (congrArg (· + 1) hm) type (value, xs), Parts.unpackAt, bind_assoc]
        rfl
      · cases parts with
        | nil =>
            rw [Parts.encode, Parts.encode, List.append_nil] at hsize ⊢
            obtain ⟨type, bytes, hentry, htakes, -⟩ := part_entry io hvalue hwritten hsize fill
            have hkey := to_nat_key (show i < 2 ^ 29 by omega)
            rw [hentry]
            apply Turns.entry
            rw [tag_key (by omega), tag_type (by omega)]
            have hturn := hput 0 rfl type.value ((Parts.cons t .nil).construct fill)
            rw [Nat.add_zero] at hturn
            rw [hturn, Parts.construct, Parts.unpackAt]
            exact ((htakes hread).within fun x => (x, Parts.nil.construct fill)).andThen
              (Takes.pure _)

/-- A sequence that is not as `Restorable` says, with all elements but the last one as they have
been made: nothing is written, or the first entry is of one of these elements, or it is not read
back. -/
theorem not_restorable {ts : List Type} (parts : Parts ts) {values : Values ts}
    (hset : ¬ parts.packable.Missing values) (h : ¬ parts.Restorable values) {fill : Byte}
    (huntouched : parts.Untouched fill values) (i : Nat)
    (hsize : (parts.encode io i values).length < 2 ^ 32) :
    (parts.encode io i values = [] ∧ parts.construct fill ≠ values) ∨
      ∃ m type bytes rest, m < ts.length ∧
        parts.encode io i values = entry io (UInt32.ofNat (i + m)) type bytes ++ rest ∧
        (m + 1 = ts.length → Mismatches (parts.unpackAt io m (UInt32.ofNat (i + m)) type.value
          (parts.construct fill)) bytes) := by
  match parts, values with
  | .nil, _ => exact absurd trivial h
  | .cons t parts, (value, values) =>
      obtain ⟨hvalue, hvalues⟩ := not_or.mp hset
      rw [Parts.encode, List.length_append] at hsize
      by_cases hwritten : t.Written value
      · have hfits : (t.encode io (UInt32.ofNat i) value).length < 2 ^ 32 := by omega
        obtain ⟨type, bytes, hentry, -, hmismatches⟩ := part_entry io hvalue hwritten hfits fill
        refine .inr ⟨0, type, bytes, parts.encode io (i + 1) values, Nat.succ_pos _, ?_, ?_⟩
        · rw [Parts.encode, hentry]
          rfl
        · intro hlast
          cases parts with
          | cons t' parts => cases Nat.succ.inj hlast
          | nil =>
              have hread : ¬ t.Readable value :=
                fun hread => h ⟨.inr ⟨rfl, hwritten, hread⟩, trivial⟩
              rw [Nat.add_zero, Parts.construct, Parts.unpackAt]
              exact (hmismatches hread).bind _
      · have hnothing := part_unwritten io hwritten (UInt32.ofNat i)
        rw [Parts.encode, hnothing, List.nil_append]
        by_cases hunset : t.Unset value
        · have hrest : ¬ parts.Restorable values := fun hrest => h ⟨.inl hunset, hrest⟩
          rcases not_restorable parts hvalues hrest huntouched.2 (i + 1) (by omega) with
            ⟨hempty, hne⟩ | ⟨m, type, bytes, rest, hm, hentry, hmismatches⟩
          · exact .inl ⟨hempty, fun heq => hne (congrArg Prod.snd heq)⟩
          · have hkey : i + 1 + m = i + (m + 1) := by omega
            rw [hkey] at hentry hmismatches
            refine .inr ⟨m + 1, type, bytes, rest, Nat.succ_lt_succ hm, hentry, fun hlast => ?_⟩
            exact (hmismatches (Nat.succ.inj hlast)).bind _
        · -- only the last element can be an optional that is set to one that is not
          rcases huntouched.1 with rfl | rfl
          · cases parts with
            | nil =>
                refine .inl ⟨rfl, fun heq => hunset ?_⟩
                obtain rfl : t.construct fill = value := congrArg Prod.fst heq
                exact unwritten_construct hwritten
          · exact absurd (unwritten_construct hwritten) hunset

/-! ## The round trip -/

/-- The sequences whose elements can be numbered by keys. -/
structure Sequence (ts : List Type) where
  parts : Parts ts
  few : ts.length ≤ 2 ^ 29

variable {ts : List Type} (q : Sequence ts)

/-- The sequence is packed, and unpacked from this into a default-constructed one, whatever the end
of the function makes. -/
def Sequence.ComesBack (msg : Text) (fill : Byte) (values : Values ts) : Prop :=
  ∃ bytes, q.parts.body.packVector io msg values = (bytes, none) ∧ ∀ unspecified, ∃ s',
    q.parts.unpackMessage io unspecified (q.parts.construct fill) (.new bytes) =
      .ok ((values, true), s')

/-- The loop makes the sequence of its entries. -/
theorem unpack_restorable {values : Values ts} (hset : ¬ q.parts.packable.Missing values)
    (h : q.parts.Restorable values) (hsize : (q.parts.encode io 0 values).length < 2 ^ 32)
    (fill : Byte) (unspecified : Datastream → Bool) :
    ∃ s', q.parts.unpackMessage io unspecified (q.parts.construct fill)
      (.new (q.parts.encode io 0 values)) = .ok ((values, true), s') := by
  have hturns : Turns io (q.parts.turn io unspecified) (q.parts.encode io 0 values)
      (q.parts.construct fill) values := by
    refine turns_parts io q.parts hset h 0 hsize (by rw [Nat.zero_add]; exact q.few) fill id
      fun m hm type xs => ?_
    rw [Nat.zero_add, id, turn_last io q.parts unspecified hm type xs]
    rfl
  have hinside := inside_new hsize
  have hrest : (Datastream.new (q.parts.encode io 0 values)).rest =
      q.parts.encode io 0 values ++ [] := (List.append_nil _).symm
  obtain ⟨k, hk, hloop⟩ := hturns _ [] hinside hrest
  have hfuel : (q.parts.encode io 0 values).length + 2 =
      (q.parts.encode io 0 values).length + 1 - k + 1 + k := by omega
  have hend := hloop ((q.parts.encode io 0 values).length + 1 - k + 1)
  rw [loop_end (hinside.skip hrest) (Datastream.rest_skip_append hrest), ← hfuel] at hend
  exact ⟨_, hend⟩

/-- The loop does not make a sequence of its entries that is not as `Restorable` says, where the end
of the function makes a `false`. -/
theorem unpack_not_restorable {values : Values ts} (hset : ¬ q.parts.packable.Missing values)
    (h : ¬ q.parts.Restorable values) (hsize : (q.parts.encode io 0 values).length < 2 ^ 32)
    (fill : Byte) (s' : Datastream) :
    q.parts.unpackMessage io (fun _ => false) (q.parts.construct fill)
      (.new (q.parts.encode io 0 values)) ≠ .ok ((values, true), s') := by
  intro hunpack
  have hrun : unpackLoop io (q.parts.turn io fun _ => false)
      ((q.parts.encode io 0 values).length + 2) (q.parts.construct fill)
      (.new (q.parts.encode io 0 values)) = .ok ((values, true), s') := hunpack
  have huntouched := results_sequence io q.parts q.few _ (untouched_construct fill q.parts) _ _ _
    hrun rfl
  have hinside := inside_new hsize
  rcases not_restorable io q.parts hset h huntouched 0 hsize with
    ⟨hempty, hne⟩ | ⟨m, type, bytes, rest, hm, hentry, hmismatches⟩
  · rw [loop_end hinside hempty] at hrun
    exact hne (congrArg (fun p => p.1.1) (Except.ok.inj hrun))
  · have hrest : (Datastream.new (q.parts.encode io 0 values)).rest =
        io.unsigned (tag (UInt32.ofNat m) type) ++ (bytes ++ rest) := by
      rw [← List.append_assoc, ← entry]
      show q.parts.encode io 0 values = _
      rw [hentry, Nat.zero_add]
    have hfew := q.few
    have hkey := to_nat_key (show m < 2 ^ 29 by omega)
    rw [loop_tag hinside hrest, tag_key (by omega), tag_type (by omega)] at hrun
    by_cases hlast : m + 1 = ts.length
    · -- the visitor of the last element throws
      obtain ⟨name, hname⟩ := hmismatches hlast _ rest (hinside.skip hrest)
        (Datastream.rest_skip_append hrest)
      rw [Nat.zero_add] at hname
      rw [turn_last io q.parts _ hlast.symm, bind_assoc, bind_of_error hname] at hrun
      cases hrun
    · obtain ⟨index, hindex⟩ : ∃ index, ts.length = index + 1 :=
        ⟨ts.length - 1, by omega⟩
      have hends := results_turn io q.parts hindex q.few
        (show (UInt32.ofNat m).toNat ≠ index by omega) type.value (q.parts.construct fill)
      cases hturn : q.parts.turn io (fun _ => false) (UInt32.ofNat m) type.value
          (q.parts.construct fill) ((Datastream.new (q.parts.encode io 0 values)).skip
            (io.unsigned (tag (UInt32.ofNat m) type)).length) with
      | error e =>
          rw [bind_of_error hturn] at hrun
          cases hrun
      | ok p =>
          have hend := hends _ p.1 p.2 hturn
          rw [bind_of_ok hturn, if_pos hend] at hrun
          cases hrun

theorem comes_back_iff (msg : Text) (fill : Byte) {values : Values ts}
    (hsize : (q.parts.encode io 0 values).length < 2 ^ 32) :
    q.ComesBack io msg fill values ↔
      ¬ q.parts.packable.Missing values ∧ q.parts.Restorable values := by
  constructor
  · intro h'
    obtain ⟨bytes, hpack, hunpack⟩ := h'
    have hset : ¬ q.parts.packable.Missing values := by
      intro hmissing
      rw [pack_vector_refused io q.parts.body msg hmissing] at hpack
      cases hpack
    refine ⟨hset, ?_⟩
    by_contra h
    have hencode := encode_parts io q.parts hset hsize
    rw [pack_vector_body io q.parts.body msg hset (by rw [hencode]; exact hsize), hencode] at hpack
    cases hpack
    obtain ⟨s', hs'⟩ := hunpack fun _ => false
    exact unpack_not_restorable io q hset h hsize fill s' hs'
  · intro h'
    obtain ⟨hset, h⟩ := h'
    have hencode := encode_parts io q.parts hset hsize
    have hpack := pack_vector_body io q.parts.body msg hset (by rw [hencode]; exact hsize)
    rw [hencode] at hpack
    exact ⟨_, hpack, unpack_restorable io q hset h hsize fill⟩

/-- The helper does right for a key where `LookedUp` says so. A sequence comes back if its required
fields are set and it is `Restorable`, and only then. -/
theorem sequences_right_iff :
    (∀ key type values s, q.parts.unpackField io ts.length key type values s =
      q.parts.lookUp io key type values s ↔ q.parts.LookedUp io key type values s) ∧
    ∀ values, (q.parts.encode io 0 values).length < 2 ^ 32 → ∀ msg fill,
      (q.ComesBack io msg fill values ↔
        ¬ q.parts.packable.Missing values ∧ q.parts.Restorable values) :=
  ⟨looked_up_iff q.parts q.few, fun _ hsize msg fill => comes_back_iff io q msg fill hsize⟩

/-- The sequences of two numbers. -/
def pair : Sequence [UInt32, UInt32] where
  parts := .cons (.plain .unsignedInt) (.cons (.plain .unsignedInt) .nil)
  few := by decide

/-- Two numbers do not come back. -/
theorem pair_not_restored :
    ¬ ∀ (io : Varints) (ts : List Type) (q : Sequence ts),
      (∀ key type values s, q.parts.unpackField io ts.length key type values s =
        q.parts.lookUp io key type values s) ∧
      ∀ values, (q.parts.encode io 0 values).length < 2 ^ 32 →
        ¬ q.parts.packable.Missing values → ∀ msg fill, q.ComesBack io msg fill values := by
  intro h
  let _ := Machine.x86
  have hset : ¬ pair.parts.packable.Missing (1, 2, ()) := by
    rintro (h | h | h) <;> exact h
  have hsize : (pair.parts.encode .base128 0 (1, 2, ())).length < 2 ^ 32 := by
    simp [pair, Parts.encode, Part.encode, entry, payload, wireType, Varints.base128, tag,
      WireType.value, Base128.code_small]
  have hback := (h .base128 _ pair).2 (1, 2, ()) hsize hset [] 0
  rcases ((comes_back_iff .base128 pair [] 0 hsize).mp hback).2.1 with hunset | ⟨hnil, -⟩
  · exact hunset
  · cases hnil

end BoostRpc.ProtocolBuffer
