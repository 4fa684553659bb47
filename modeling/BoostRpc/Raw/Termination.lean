import BoostRpc.Raw.OptionalMembers

/-!
# Decoding that never ends

The loop of a variable-length integer looks at the byte that it has obtained last, which a failed
`get` leaves as it was: at the end of the buffer it goes on for ever if that byte asks for more.
`unsigned_ends_iff` says when it ends. The layouts put integers at all positions of a buffer, so
that all of them end exactly where the last byte of the buffer ends a number: `decoding_ends_iff`.
-/

namespace BoostRpc.Raw

variable [Machine] {k : Kind} {α β γ : Type}

/-! ## One integer -/

/-- The loop ends at a byte that ends a number, or at once where there is no byte. -/
theorem get_groups_ends (count : Nat → Nat) {s : Datastream} {r : Text} (h : s.rest = r)
    {b : Byte} (hb : b.toNat < 128 ∧ r = [] ∨ ∃ c ∈ r, c.toNat < 128) (v shift : Nat) :
    ∃ n m, getGroups count (r.length + 1) s v b shift = .ok (n, s.skip m) ∧ m ≤ max 1 r.length := by
  induction r generalizing s v b shift with
  | nil =>
      rcases hb with ⟨hb, -⟩ | ⟨c, hc, -⟩
      · simp only [getGroups, Datastream.get_end h, if_pos ((top_bit_clear b).mpr hb)]
        exact ⟨_, 1, rfl, Nat.le_max_left _ _⟩
      · cases hc
  | cons c r ih =>
      rw [List.length_cons, get_groups_step count _ v b shift h]
      by_cases hc : c.toNat < 128
      · rw [if_pos hc]
        exact ⟨_, 1, rfl, Nat.le_max_left _ _⟩
      · -- a byte that ends a number is further behind
        have htail : ∃ d ∈ r, d.toNat < 128 := by
          rcases hb with ⟨-, hnil⟩ | ⟨d, hd, hsmall⟩
          · cases hnil
          · cases List.mem_cons.mp hd with
            | inl hdc => exact absurd (hdc ▸ hsmall) hc
            | inr hdr => exact ⟨d, hdr, hsmall⟩
        have hpos : 0 < r.length := by
          obtain ⟨d, hd, -⟩ := htail
          exact List.length_pos_of_mem hd
        obtain ⟨n, m, hread, hm⟩ := ih (Datastream.rest_skip_cons h) (.inr htail)
          (v ||| (shiftLeft (c &&& 0x7f).toUInt32 shift).toNat) (count (shift + 7))
        rw [if_neg hc, hread, Datastream.skip_skip]
        exact ⟨n, 1 + m, rfl, by omega⟩

/-- Where no byte ends a number, the loop goes on for ever. -/
theorem get_groups_endless (count : Nat → Nat) {s : Datastream} {r : Text} (h : s.rest = r)
    (hr : ∀ c ∈ r, 128 ≤ c.toNat) {b : Byte} (hb : r = [] → 128 ≤ b.toNat) (fuel v shift : Nat) :
    getGroups count fuel s v b shift = .error .endless := by
  induction r generalizing s fuel v b shift with
  | nil => exact get_groups_end (hb rfl) h count fuel v shift
  | cons c r ih =>
      have hc := hr c List.mem_cons_self
      cases fuel with
      | zero => rfl
      | succ fuel =>
          rw [get_groups_step count fuel v b shift h, if_neg (by omega)]
          exact ih (Datastream.rest_skip_cons h) (fun d hd => hr d (List.mem_cons_of_mem _ hd))
            (fun _ => hc) fuel _ _

/-- The bytes in front of the end contain one that ends a number, or there are none. -/
def Complete (bytes : Text) : Prop := bytes = [] ∨ ∃ c ∈ bytes, c.toNat < 128

/-- The reader ends, after at most one `get` more than there are bytes. Each `get` moves the cursor
by one, also where it fails. -/
def EndsIn (reader : Reader β) (s : Datastream) : Prop :=
  ∃ x m, reader s = .ok (x, s.skip m) ∧ m ≤ s.rest.length + 1

theorem read_groups_ends_iff (count : Nat → Nat) (s : Datastream) :
    EndsIn (readGroups count) s ↔ Complete s.rest := by
  constructor
  · intro h
    obtain ⟨n, m, hread, -⟩ := h
    by_contra hcomplete
    rw [Complete, not_or] at hcomplete
    have hlarge : ∀ c ∈ s.rest, 128 ≤ c.toNat := by
      intro c hc
      by_contra hsmall
      exact hcomplete.2 ⟨c, hc, by omega⟩
    rw [readGroups,
      get_groups_endless count rfl hlarge fun hnil => absurd hnil hcomplete.1] at hread
    cases hread
  · intro h
    have hzero : (0 : Byte).toNat < 128 := by decide
    obtain ⟨n, m, hread, hm⟩ := get_groups_ends count rfl (h.imp (fun hnil => ⟨hzero, hnil⟩) id) 0 0
    exact ⟨n, m, hread, by omega⟩

omit [Machine] in
/-- Converting the result changes nothing about the end of a reader. -/
theorem ends_in_map (reader : Reader β) (f : β → γ) (s : Datastream) :
    EndsIn (reader >>= fun x => Pure.pure (f x)) s ↔ EndsIn reader s := by
  have hmap : (reader >>= fun x => Pure.pure (f x)) s =
      (reader s).map fun p => (f p.1, p.2) := by
    change (reader s >>= fun p => Except.ok (f p.1, p.2)) = _
    cases reader s <;> rfl
  unfold EndsIn
  rw [hmap]
  cases reader s with
  | error fault => exact ⟨nofun, nofun⟩
  | ok p =>
      obtain ⟨y, t⟩ := p
      constructor
      · intro h
        obtain ⟨x, m, heq, hm⟩ := h
        obtain ⟨-, rfl⟩ := Prod.mk.inj (Except.ok.inj heq)
        exact ⟨y, m, rfl, hm⟩
      · intro h
        obtain ⟨x, m, heq, hm⟩ := h
        obtain ⟨-, rfl⟩ := Prod.mk.inj (Except.ok.inj heq)
        exact ⟨f y, m, rfl, hm⟩

theorem unsigned_ends_iff (s : Datastream) : EndsIn unpackUnsigned s ↔ Complete s.rest :=
  (ends_in_map _ _ s).trans (read_groups_ends_iff _ s)

theorem signed_ends_iff (s : Datastream) : EndsIn unpackSigned s ↔ Complete s.rest :=
  (ends_in_map _ _ s).trans (read_groups_ends_iff _ s)

/-! ## All types -/

/-- The last byte ends a number. -/
def Closed (bytes : Text) : Prop := ∀ c ∈ bytes.getLast?, c.toNat < 128

/-- On a buffer whose last byte ends a number the reader ends, and it keeps the buffer. -/
def Halts (reader : Reader β) : Prop :=
  ∀ s, Closed s.data → reader s ≠ .error .endless ∧
    ∀ x s', reader s = .ok (x, s') → s'.data = s.data

omit [Machine] in
theorem Halts.pure (x : β) : Halts (Pure.pure x) := by
  intro s _
  refine ⟨nofun, ?_⟩
  intro y s' h
  cases h
  rfl

omit [Machine] in
theorem Halts.bind {first : Reader β} {second : β → Reader γ} (hfirst : Halts first)
    (hsecond : ∀ x, Halts (second x)) : Halts (first >>= second) := by
  intro s hs
  obtain ⟨hends, hdata⟩ := hfirst s hs
  cases hread : first s with
  | error fault =>
      have hbind : (first >>= second) s = .error fault := by
        change (first s >>= fun p => second p.1 p.2) = _
        rw [hread]
        rfl
      rw [hbind]
      refine ⟨?_, nofun⟩
      rw [hread] at hends
      intro h
      cases h
      exact hends rfl
  | ok p =>
      have hbind : (first >>= second) s = second p.1 p.2 := by
        change (first s >>= fun p => second p.1 p.2) = _
        rw [hread]
        rfl
      have hkept : p.2.data = s.data := hdata p.1 p.2 hread
      obtain ⟨hends', hdata'⟩ := hsecond p.1 p.2 (hkept ▸ hs)
      rw [hbind]
      exact ⟨hends', fun x s' h => (hdata' x s' h).trans hkept⟩

omit [Machine] in
theorem halts_read (n : UInt32) (d : List.Vector Byte n.toNat) : Halts (Datastream.read n d) := by
  intro s _
  unfold Datastream.read
  split
  · split
    · refine ⟨nofun, ?_⟩
      intro x s' h
      cases h
      rfl
    · exact ⟨nofun, nofun⟩
  · refine ⟨nofun, ?_⟩
    intro x s' h
    cases h
    rfl

omit [Machine] in
/-- What is left of a buffer whose last byte ends a number ends one. -/
theorem complete_of_closed {s : Datastream} (h : Closed s.data) : Complete s.rest := by
  cases hlast : s.rest.getLast? with
  | none => exact .inl (List.getLast?_eq_none_iff.mp hlast)
  | some c =>
      refine .inr ⟨c, List.mem_of_getLast? hlast, h c ?_⟩
      unfold Datastream.rest at hlast
      rw [List.getLast?_drop] at hlast
      split at hlast
      · cases hlast
      · exact hlast

omit [Machine] in
theorem halts_of_ends {reader : Reader β} (h : ∀ s, EndsIn reader s ↔ Complete s.rest) :
    Halts reader := by
  intro s hs
  obtain ⟨x, m, hread, -⟩ := (h s).mpr (complete_of_closed hs)
  rw [hread]
  refine ⟨nofun, ?_⟩
  intro y s' heq
  cases heq
  rfl

theorem halts_unsigned : Halts unpackUnsigned := halts_of_ends unsigned_ends_iff

theorem halts_signed : Halts unpackSigned := halts_of_ends signed_ends_iff

theorem halts_bool : Halts unpackBool := (halts_read _ _).bind fun _ => .pure _

theorem halts_chars (v : Text) : Halts (unpackChars v) := by
  refine halts_unsigned.bind ?_
  intro size
  split
  · exact .pure _
  · exact (halts_read _ _).bind fun _ => .pure _

omit [Machine] in
theorem halts_each {item : β → Reader β} (h : ∀ x, Halts (item x)) (xs : List β) :
    Halts (unpackEach item xs) := by
  induction xs with
  | nil => exact .pure []
  | cons x xs ih => exact (h x).bind fun _ => ih.bind fun _ => .pure _

omit [Machine] in
theorem halts_repeated {body : β → Reader β} (h : ∀ v, Halts (body v)) (n : Nat) (v : β) :
    Halts (repeated body n v) := by
  induction n generalizing v with
  | zero => exact .pure v
  | succ n ih => exact (h v).bind ih

/-- Unpacking any type halts. -/
theorem halts_unpack (t : Layout k α) (v : α) : Halts (unpack t v) := by
  induction t with
  | bool => exact halts_bool
  | pod scalar => exact (halts_read _ _).bind fun _ => .pure _
  | unsignedInt => exact halts_unsigned
  | signedInt => exact halts_signed
  | string => exact halts_chars []
  | chars => exact halts_chars v
  | container t ih => exact halts_unsigned.bind fun _ => halts_each ih _
  | set cmp t ih =>
      exact halts_unsigned.bind fun _ => halts_repeated (fun _ => (ih _).bind fun _ => .pure _) _ _
  | map cmp k t ihk iht =>
      refine halts_unsigned.bind fun _ => halts_repeated (fun _ => ?_) _ _
      exact (ihk _).bind fun _ => (iht _).bind fun _ => .pure _
  | optional t ih =>
      refine halts_bool.bind ?_
      intro b
      cases b with
      | true => exact (ih _).bind fun _ => .pure _
      | false => exact .pure _
  | required t ih => exact fun s _ => ⟨nofun, nofun⟩
  | sequence ts ih => exact ih v
  | struct ts members ih => exact (ih _).bind fun _ => .pure _
  | nil => exact .pure ()
  | cons t ts iht ihts => exact (iht v.1).bind fun _ => (ihts v.2).bind fun _ => .pure _

/-- The `datastream` that `unpack_vec` makes of a buffer: its constructor takes the size as a
`uint32_t`. -/
def streamOver (buffer : Text) : Datastream :=
  .new (buffer.take (UInt32.ofNat buffer.length).toNat)

/-- `raw::unpack_vec` into a target that holds a value. -/
def unpackVec (t : Layout .single α) (buffer : Text) (v : α) : Except Fault α :=
  if buffer.length = 0 then .ok v else (unpack t v (streamOver buffer)).map Prod.fst

/-- Both kinds of integers come to an end on the buffer, after at most one `get` more than there
are bytes, and so does every type. -/
structure DecodingEnds (buffer : Text) : Prop where
  unsigned : EndsIn unpackUnsigned (streamOver buffer)
  signed : EndsIn unpackSigned (streamOver buffer)
  vec : ∀ {α : Type} (t : Layout .single α) (v : α), unpackVec t buffer v ≠ .error .endless

/-- A type of this many bytes that are copied. -/
def charArray (n : UInt32) (h : 0 < n.toNat) : Scalar (List.Vector Byte n.toNat) :=
  ⟨n, h, Equiv.refl _⟩

omit [Machine] in
/-- A fault of the second reader is one of both. -/
theorem bind_fault {first : Reader β} {second : β → Reader γ} {a r : Text} {x : β} {s : Datastream}
    {fault : Fault} (hfirst : Reads first a x) (hs : s.rest = a ++ r)
    (hsecond : second x (s.skip a.length) = .error fault) :
    (first >>= second) s = .error fault := by
  change (first s >>= fun p => second p.1 p.2) = _
  rw [hfirst s r hs]
  exact hsecond

/-- An integer at the last byte of a stream, behind an array of characters. -/
theorem last_byte_endless {data : Text} {c : Byte} (hc : 128 ≤ c.toNat)
    (hlast : data.getLast? = some c) (hlen : data.length < 2 ^ 32) :
    ∃ (α : Type) (t : Layout .single α) (v : α), unpack t v (.new data) = .error .endless := by
  obtain ⟨front, rfl⟩ := List.getLast?_eq_some_iff.mp hlast
  have hbyte : ∀ s : Datastream, s.rest = [c] → unpackUnsigned s = .error .endless := by
    intro s hs
    have hgroups : readGroups (· % 256) s = .error .endless := by
      refine get_groups_endless _ hs ?_ nofun _ _ _
      intro d hd
      rwa [List.mem_singleton.mp hd]
    change (readGroups (· % 256) s >>= _) = _
    rw [hgroups]
    rfl
  by_cases hfront : front = []
  · subst hfront
    exact ⟨UInt32, .unsignedInt, 0, hbyte _ rfl⟩
  · have hcount : (UInt32.ofNat front.length).toNat = front.length := by
      rw [List.length_append] at hlen
      exact to_nat_count (by omega)
    have hpos : 0 < (UInt32.ofNat front.length).toNat := by
      rw [hcount]
      exact List.length_pos_iff.mpr hfront
    refine ⟨_, .sequence (.cons (.pod (charArray _ hpos)) (.cons .unsignedInt .nil)),
      (List.Vector.replicate _ 0, 0, ()), ?_⟩
    have hread : Reads (unpack (.pod (charArray _ hpos)) (List.Vector.replicate _ 0)) front
        ⟨front, hcount.symm⟩ := (reads_read hpos _ ⟨front, hcount.symm⟩).map _
    refine bind_fault hread (Datastream.rest_new _) ?_
    -- the integer is the first of the members that are left
    have hrest : ((Datastream.new (front ++ [c])).skip front.length).rest = [c] :=
      Datastream.rest_skip_append (Datastream.rest_new _)
    change (unpackUnsigned _ >>= _) >>= _ = _
    rw [hbyte _ hrest]
    rfl

/-- Decoding a buffer comes to an end for all types exactly where the last byte of the stream ends a
number, and for an integer at its start exactly where some byte does. -/
theorem decoding_ends_iff (buffer : Text) :
    (DecodingEnds buffer ↔ Closed (streamOver buffer).data) ∧
      (EndsIn unpackUnsigned (streamOver buffer) ↔ Complete (streamOver buffer).data) ∧
      (EndsIn unpackSigned (streamOver buffer) ↔ Complete (streamOver buffer).data) := by
  have hrest : (streamOver buffer).rest = (streamOver buffer).data := rfl
  refine ⟨⟨?_, ?_⟩, unsigned_ends_iff _, signed_ends_iff _⟩
  · intro h c hc
    by_contra hlarge
    have hlen : (streamOver buffer).data.length < 2 ^ 32 := by
      have hsize := (UInt32.ofNat buffer.length).toNat_lt
      have htake := List.length_take_le (UInt32.ofNat buffer.length).toNat buffer
      exact Nat.lt_of_le_of_lt htake hsize
    obtain ⟨α, t, v, hendless⟩ := last_byte_endless (by omega) hc hlen
    have hne : buffer.length ≠ 0 := by
      intro hzero
      rw [List.length_eq_zero_iff.mp hzero] at hc
      cases hc
    refine h.vec t v ?_
    rw [unpackVec, if_neg hne]
    rw [show unpack t v (streamOver buffer) = .error .endless from hendless]
    rfl
  · intro h
    have hcomplete : Complete (streamOver buffer).rest := complete_of_closed h
    refine ⟨(unsigned_ends_iff _).mpr hcomplete, (signed_ends_iff _).mpr hcomplete, ?_⟩
    intro α t v
    unfold unpackVec
    split
    · exact nofun
    · obtain ⟨hends, -⟩ := halts_unpack t v _ h
      cases hread : unpack t v (streamOver buffer) with
      | error fault =>
          intro heq
          cases heq
          exact hends hread
      | ok p => exact nofun

omit [Machine] in
/-- A single byte that asks for more: however many iterations the loop makes, it goes on. -/
theorem decoding_truncated :
    letI := Machine.x86
    ¬ DecodingEnds [128] ∧
      (∀ fuel, getGroups (· % 256) fuel (.new [128]) 0 0 0 = .error .endless) ∧
      unpackVec .unsignedInt [128] 0 = .error .endless := by
  let _ := Machine.x86
  have hall : ∀ c ∈ [(128 : Byte)], 128 ≤ c.toNat := by
    intro c hc
    obtain rfl := List.mem_singleton.mp hc
    exact Nat.le_refl 128
  have hloop : ∀ fuel, getGroups (· % 256) fuel (.new [128]) 0 0 0 = .error .endless :=
    fun fuel => get_groups_endless _ (show (Datastream.new [128]).rest = [128] from rfl) hall nofun
      fuel 0 0
  refine ⟨?_, hloop, rfl⟩
  intro h
  obtain ⟨n, m, hread, -⟩ := h.unsigned
  have hread' : unpackUnsigned (.new [128]) = .ok (n, _) := hread
  cases hread'

end BoostRpc.Raw
