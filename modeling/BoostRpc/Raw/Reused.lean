import BoostRpc.Raw.RoundTrip

/-!
# Targets that hold a value

`raw::unpack` into a target that holds a value. What the decoder takes off the stream does not
depend on the target: by `unpack_eq_put` it makes a reading of the stream, and puts this into the
target. An optional whose flag is clear is left as it is, a set is added to, and a scalar behind the
end of the stream is not assigned. `unpack_overwrites_iff` says when the target does not matter.
-/

namespace BoostRpc.Raw

open Ordered Base128

variable {k : Kind} {α β γ : Type}

/-! ## Readings -/

/-- What is read for a value, before it is put into the target. -/
@[reducible] def Reading : {k : Kind} → {α : Type} → Layout k α → Type
  -- nothing where the stream is too short
  | _, _, .pod scalar => Option (List.Vector Byte scalar.size.toNat)
  | _, _, .chars => UInt32 × Option Text
  | _, _, .container t => List (Reading t)
  | _, _, @Layout.set α _ _ => List α
  | _, _, .required _ => Unit
  | _, _, .sequence ts => Reading ts
  | _, _, .struct ts _ => Reading ts
  | _, _, .cons t ts => Reading t × Reading ts
  | _, _, .nil => Unit
  | _, _, .bool => Bool
  | _, _, .unsignedInt => UInt32
  | _, _, .signedInt => Int32
  | _, _, .string => Text
  | _, _, @Layout.map _ ν cmp _ _ => OrderedMap cmp ν
  | _, _, @Layout.optional α _ => Option α

/-- A reader `n` times. -/
def times (reader : Reader β) : Nat → Reader (List β)
  | 0 => return []
  | n + 1 => do
      let x ← reader
      let xs ← times reader n
      return x :: xs

/-- `read` of bytes, if there are so many. -/
def readBytes (n : UInt32) : Reader (Option (List.Vector Byte n.toNat)) := do
  let (success, d) ← Datastream.read n (List.Vector.replicate _ 0)
  return if success then some d else none

/-- What the decoder takes off a stream. -/
def readValue [Machine] : {k : Kind} → {α : Type} → (t : Layout k α) → Reader (Reading t)
  | _, _, .bool => unpackBool
  | _, _, .pod scalar => readBytes scalar.size
  | _, _, .unsignedInt => unpackUnsigned
  | _, _, .signedInt => unpackSigned
  | _, _, .string => unpackChars []
  | _, _, .chars => do
      let size ← unpackUnsigned
      if size.toNat = 0 then return (size, some [])
      else
        let d ← readBytes size
        return (size, d.map List.Vector.toList)
  | _, _, .container t => do
      let size ← unpackUnsigned
      times (readValue t) size.toNat
  | _, _, .set _ t => do
      let size ← unpackUnsigned
      times (unpack t (construct Machine.junk t)) size.toNat
  | _, _, .map cmp k t => unpack (.map cmp k t) .empty
  | _, _, .optional t => unpack (.optional t) none
  | _, _, .required _ => throw .illFormed
  | _, _, .sequence ts => readValue ts
  | _, _, .struct ts _ => readValue ts
  | _, _, .nil => return ()
  | _, _, .cons t ts => do
      let p ← readValue t
      let ps ← readValue ts
      return (p, ps)

/-- The target after the reading has been put into it. -/
def put : {k : Kind} → {α : Type} → (t : Layout k α) → Reading t → α → α
  | _, _, .pod scalar, p, w => p.elim w scalar.repr.symm
  | _, _, .chars, (size, p), w => p.getD (resize size.toNat 0 w)
  | _, _, .container t, ps, w => List.zipWith (put t) ps (resize ps.length (construct 0 t) w)
  | _, _, .set _ _, p, w => w.insertAll p
  | _, _, .optional _, p, w => p.or w
  | _, _, .required _, _, w => w
  | _, _, .sequence ts, p, w => put ts p w
  | _, _, .struct ts members, p, w => members.symm (put ts p (members w))
  | _, _, .cons t ts, p, (w, ws) => (put t p.1 w, put ts p.2 ws)
  | _, _, .nil, p, _ => p
  | _, _, .bool, p, _ => p
  | _, _, .unsignedInt, p, _ => p
  | _, _, .signedInt, p, _ => p
  | _, _, .string, p, _ => p
  | _, _, .map _ _ _, p, _ => p

/-- Nothing of the target is left after the reading has been put into it: it is as a
default-constructed one would be. -/
def Overwritten (fill : Byte) : {k : Kind} → {α : Type} → (t : Layout k α) → Reading t → α → Prop
  | _, _, .pod scalar, p, w => p = none → w = construct fill (.pod scalar)
  | _, _, .chars, (size, p), w => p = none → resize size.toNat 0 w = List.replicate size.toNat 0
  | _, _, .container t, ps, w => ∀ q ∈ ps.zip w, Overwritten 0 t q.1 q.2
  | _, _, .set cmp _, p, w => ∀ x ∈ w.items, x ∈ (Items.empty.insertAll p : OrderedSet cmp).items
  | _, _, .optional _, p, w => p = none → w = none
  | _, _, .required t, _, w => w = construct fill (.required t)
  | _, _, .sequence ts, p, w => Overwritten fill ts p w
  | _, _, .struct ts members, p, w => Overwritten fill ts p (members w)
  | _, _, .cons t ts, p, (w, ws) => Overwritten fill t p.1 w ∧ Overwritten fill ts p.2 ws
  | _, _, .nil, _, _ => True
  | _, _, .bool, _, _ => True
  | _, _, .unsignedInt, _, _ => True
  | _, _, .signedInt, _, _ => True
  | _, _, .string, _, _ => True
  | _, _, .map _ _ _, _, _ => True

/-! ## The decoder does not look at the target -/

/-- What is put into some elements one after the other. -/
theorem unpack_each_times {item : α → Reader α} {reader : Reader β} {f : β → α → α}
    (h : ∀ w, item w = reader >>= fun p => pure (f p w)) (ws : List α) :
    unpackEach item ws = times reader ws.length >>= fun ps => pure (List.zipWith f ps ws) := by
  induction ws with
  | nil => rfl
  | cons w ws ih =>
      rw [unpackEach, h, ih, List.length_cons, times]
      simp only [bind_assoc, pure_bind]
      rfl

/-- As many readings are made as are asked for. -/
theorem times_length (reader : Reader β) (n : Nat) (g : List β → Nat → Reader γ) :
    (times reader n >>= fun ps => g ps ps.length) = times reader n >>= fun ps => g ps n := by
  induction n generalizing g with
  | zero => rfl
  | succ n ih =>
      simp only [times, bind_assoc, pure_bind, List.length_cons]
      congr 1
      funext x
      exact ih fun ps n => g (x :: ps) (n + 1)

/-- A loop that adds what is read. -/
theorem repeated_times {body : γ → Reader γ} {reader : Reader β} {add : γ → β → γ}
    (h : ∀ v, body v = reader >>= fun x => pure (add v x)) (n : Nat) (v : γ) :
    repeated body n v = times reader n >>= fun xs => pure (xs.foldl add v) := by
  induction n generalizing v with
  | zero => rfl
  | succ n ih =>
      rw [repeated, h, times]
      simp only [bind_assoc, pure_bind, ih]
      rfl

/-- `read` into memory that holds something. -/
theorem read_eq_bytes (n : UInt32) (d : List.Vector Byte n.toNat) :
    (Datastream.read n d >>= fun p => pure p.2) =
      readBytes n >>= fun p => pure (p.getD d) := by
  funext s
  show (Datastream.read n d s >>= fun p => Except.ok (p.1.2, p.2)) =
    ((Datastream.read n _ s >>= fun p => Except.ok (if p.1.1 then some p.1.2 else none, p.2)) >>=
      fun p => Except.ok (p.1.getD d, p.2))
  unfold Datastream.read
  split
  · split <;> rfl
  · rfl

variable [Machine]

/-- The decoder reads the same whatever the target holds. -/
theorem unpack_eq_put (t : Layout k α) (w : α) :
    unpack t w = readValue t >>= fun p => pure (put t p w) := by
  induction t with
  | bool => exact (bind_pure _).symm
  | unsignedInt => exact (bind_pure _).symm
  | signedInt => exact (bind_pure _).symm
  | string => exact (bind_pure _).symm
  | pod scalar =>
      have hread := congrArg (fun r => r >>= fun d => pure (scalar.repr.symm d))
        (read_eq_bytes scalar.size (scalar.repr w))
      simp only [bind_assoc, pure_bind] at hread
      refine hread.trans (congrArg (readBytes scalar.size >>= ·) (funext fun p => ?_))
      cases p with
      | none => exact congrArg pure (scalar.repr.symm_apply_apply w)
      | some d => rfl
  | chars =>
      simp only [unpack, unpackChars, readValue, bind_assoc]
      refine congrArg (unpackUnsigned >>= ·) (funext fun size => ?_)
      split
      · rename_i hzero
        rw [pure_bind]
        exact congrArg pure (List.length_eq_zero_iff.mp ((length_resize _ _ _).trans hzero))
      · have hread := congrArg (fun r => r >>= fun d => pure d.toList)
          (read_eq_bytes size ⟨resize size.toNat 0 w, length_resize _ _ _⟩)
        simp only [bind_assoc, pure_bind] at hread ⊢
        refine hread.trans (congrArg (readBytes size >>= ·) (funext fun p => ?_))
        cases p <;> rfl
  | container t ih =>
      simp only [unpack, readValue, bind_assoc]
      refine congrArg (unpackUnsigned >>= ·) (funext fun size => ?_)
      rw [unpack_each_times ih, length_resize]
      exact (times_length (readValue t) size.toNat
        fun ps n => pure (List.zipWith (put t) ps (resize n (construct 0 t) w))).symm
  | set cmp t ih =>
      simp only [unpack, readValue, bind_assoc]
      refine congrArg (unpackUnsigned >>= ·) (funext fun size => ?_)
      exact repeated_times (fun v => rfl) size.toNat w
  | map cmp k t ihk iht => exact (bind_pure _).symm
  | optional t ih =>
      simp only [unpack, readValue, bind_assoc]
      refine congrArg (unpackBool >>= ·) (funext fun b => ?_)
      cases b with
      | false => rfl
      | true =>
          simp only [if_pos, bind_assoc, pure_bind]
          rfl
  | required t ih => rfl
  | sequence ts ih => exact ih w
  | struct ts members ih =>
      simp only [unpack, readValue, ih, bind_assoc, pure_bind]
      rfl
  | nil => rfl
  | cons t ts iht ihts =>
      obtain ⟨w, ws⟩ := w
      simp only [unpack, readValue, iht, ihts, bind_assoc, pure_bind]
      rfl

/-! ## What is left of the target -/

omit [Machine] in
theorem resize_cons (n : Nat) (x w : α) (ws : List α) :
    resize (n + 1) x (w :: ws) = w :: resize n x ws := by
  rw [resize, List.take_succ_cons, List.length_cons, Nat.add_sub_add_right, List.cons_append]
  rfl

omit [Machine] in
/-- The elements that a container keeps are those in front. -/
theorem zip_with_resize_iff {f : β → α → α} {x : α} {P : β → α → Prop}
    (h : ∀ p w, f p w = f p x ↔ P p w) (ps : List β) (ws : List α) :
    List.zipWith f ps (resize ps.length x ws) = List.zipWith f ps (resize ps.length x []) ↔
      ∀ q ∈ ps.zip ws, P q.1 q.2 := by
  induction ps generalizing ws with
  | nil => exact iff_of_true rfl (List.forall_mem_nil _)
  | cons p ps ih =>
      cases ws with
      | nil => exact iff_of_true rfl (List.forall_mem_nil _)
      | cons w ws =>
          have hfresh : resize (ps.length + 1) x [] = x :: resize ps.length x [] := by
            rw [resize_nil, resize_nil, List.replicate_succ]
          rw [List.length_cons, resize_cons, hfresh, List.zipWith_cons_cons, List.zipWith_cons_cons,
            List.cons_eq_cons, h, ih, List.zip_cons_cons, List.forall_mem_cons]

omit [Machine] in
/-- A reading that is put into the target makes the same of it as of a default-constructed one
exactly where nothing is left. -/
theorem put_eq_iff (fill : Byte) (t : Layout k α) (p : Reading t) (w : α) :
    put t p w = put t p (construct fill t) ↔ Overwritten fill t p w := by
  induction t generalizing fill with
  | bool => exact iff_of_true rfl trivial
  | unsignedInt => exact iff_of_true rfl trivial
  | signedInt => exact iff_of_true rfl trivial
  | string => exact iff_of_true rfl trivial
  | map cmp k t ihk iht => exact iff_of_true rfl trivial
  | nil => exact iff_of_true rfl trivial
  | pod scalar =>
      cases p with
      | none => exact ⟨fun h _ => h, fun h => h rfl⟩
      | some d => exact iff_of_true rfl fun h => by cases h
  | chars =>
      obtain ⟨size, p⟩ := p
      cases p with
      | none =>
          rw [Overwritten, forall_prop_of_true rfl, ← resize_nil]
          rfl
      | some d => exact iff_of_true rfl fun h => by cases h
  | container t ih => exact zip_with_resize_iff (fun p w => ih 0 p w) p w
  | set cmp t ih => exact w.insert_all_eq_iff p
  | optional t ih =>
      cases p with
      | none => exact ⟨fun h _ => h, fun h => h rfl⟩
      | some x => exact iff_of_true rfl fun h => by cases h
  | required t ih => exact Iff.rfl
  | sequence ts ih => exact ih fill p w
  | struct ts members ih =>
      rw [Overwritten, ← ih fill p (members w), put, put, construct, Equiv.apply_symm_apply]
      exact members.symm.apply_eq_iff_eq
  | cons t ts iht ihts =>
      obtain ⟨w, ws⟩ := w
      rw [Overwritten, ← iht fill p.1 w, ← ihts fill p.2 ws]
      exact Prod.ext_iff

/-! ## Readings of packed values -/

/-- What is read of a packed value. -/
def reading : {k : Kind} → {α : Type} → (t : Layout k α) → α → Reading t
  | _, _, .pod scalar, v => some (scalar.repr v)
  | _, _, .chars, v => (UInt32.ofNat v.length, some v)
  | _, _, .container t, v => v.map (reading t)
  | _, _, .set _ _, v => v.items
  | _, _, .required _, _ => ()
  | _, _, .sequence ts, v => reading ts v
  | _, _, .struct ts members, v => reading ts (members v)
  | _, _, .cons t ts, (v, vs) => (reading t v, reading ts vs)
  | _, _, .nil, v => v
  | _, _, .bool, v => v
  | _, _, .unsignedInt, v => v
  | _, _, .signedInt, v => v
  | _, _, .string, v => v
  | _, _, .map _ _ _, v => v
  | _, _, .optional _, v => v

omit [Machine] in
/-- Values in a row that are read one by one. -/
theorem reads_times {reader : Reader β} {f : γ → Option Text} {g : γ → β} {xs : List γ}
    (h : ∀ x ∈ xs, ∀ bytes, f x = some bytes → Reads reader bytes (g x)) {bytes : Text}
    (hbytes : packedAll f xs = some bytes) : Reads (times reader xs.length) bytes (xs.map g) := by
  induction xs generalizing bytes with
  | nil =>
      cases hbytes
      exact Reads.pure []
  | cons x xs ih =>
      obtain ⟨a, b, ha, hb, rfl⟩ := packed_all_cons.mp hbytes
      have htail := ih (fun y hy => h y (List.mem_cons_of_mem _ hy)) hb
      exact (h x List.mem_cons_self a ha).bind (htail.map (g x :: ·))

omit [Machine] in
theorem reads_bytes {n : UInt32} (hn : 0 < n.toNat) (d : List.Vector Byte n.toNat) :
    Reads (readBytes n) d.toList (some d) :=
  (reads_read hn (List.Vector.replicate _ 0) d).map fun p => if p.1 then some p.2 else none

theorem reads_reading {c : Caller} (t : Layout k α) (hplain : plain c t = true) {v : α}
    (hcount : Counted t v) {bytes : Text} (hpack : packed c t v = some bytes) :
    Reads (readValue t) bytes (reading t v) := by
  induction t generalizing c bytes with
  | bool => exact unpack_packed .bool hplain hcount hpack 0
  | unsignedInt => exact unpack_packed .unsignedInt hplain hcount hpack 0
  | signedInt => cases hplain
  | string => exact unpack_packed .string hplain hcount hpack 0
  | map cmp k t ihk iht => exact unpack_packed (.map cmp k t) hplain hcount hpack 0
  | optional t ih => exact unpack_packed (.optional t) hplain hcount hpack 0
  | nil => exact unpack_packed .nil hplain hcount hpack 0
  | required t ih => cases hplain
  | pod scalar =>
      cases hpack
      exact reads_bytes scalar.size_pos (scalar.repr v)
  | chars =>
      rw [packed_chars] at hpack
      cases hpack
      refine (reads_unsigned (UInt32.ofNat v.length)).bind ?_
      have hlength := to_nat_count hcount
      split
      · rename_i hzero
        obtain rfl : v = [] := List.length_eq_zero_iff.mp (hlength.symm.trans hzero)
        exact Reads.pure _
      · rename_i hzero
        exact (reads_bytes (Nat.pos_of_ne_zero hzero) ⟨v, hlength.symm⟩).map
          fun d => (UInt32.ofNat v.length, d.map List.Vector.toList)
  | container t ih =>
      rw [packed_container] at hpack
      obtain ⟨b, hb, rfl⟩ := Option.map_eq_some_iff.mp hpack
      refine (reads_unsigned _).bind ?_
      rw [to_nat_count hcount.1]
      exact reads_times (fun x hx bytes hbytes => ih hplain (hcount.2 x hx) hbytes) hb
  | set cmp t ih =>
      rw [packed_set, packed_container] at hpack
      obtain ⟨b, hb, rfl⟩ := Option.map_eq_some_iff.mp hpack
      refine (reads_unsigned _).bind ?_
      rw [to_nat_count hcount.1]
      have hitems := reads_times (fun x hx bytes hbytes =>
        unpack_packed t hplain (hcount.2 x hx) hbytes Machine.junk) hb
      rw [List.map_id'] at hitems
      exact hitems
  | sequence ts ih => exact ih hplain hcount hpack
  | struct ts members ih => exact ih hplain hcount hpack
  | cons t ts iht ihts =>
      have hboth := Bool.and_eq_true_iff.mp hplain
      rw [packed_cons] at hpack
      obtain ⟨a, b, ha, hb, rfl⟩ := packed_pair_eq_some.mp hpack
      have htail := (ihts hboth.2 hcount.2 hb).map (fun ps => (reading t v.1, ps))
      exact (iht hboth.1 hcount.1 ha).bind htail

/-- Nothing of the target `w` is left where `v` is unpacked into it. -/
def Overwrites : {k : Kind} → {α : Type} → Layout k α → α → α → Prop
  | _, _, .container t, v, w => ∀ q ∈ v.zip w, Overwrites t q.1 q.2
  | _, _, .set _ _, v, w => ∀ x ∈ w.items, x ∈ v.items
  | _, _, .optional _, v, w => v = none → w = none
  | _, _, .sequence ts, v, w => Overwrites ts v w
  | _, _, .struct ts members, v, w => Overwrites ts (members v) (members w)
  | _, _, .cons t ts, v, w => Overwrites t v.1 w.1 ∧ Overwrites ts v.2 w.2
  | _, _, _, _, _ => True

omit [Machine] in
theorem overwritten_reading_iff {c : Caller} (t : Layout k α) (hplain : plain c t = true)
    (fill : Byte) (v w : α) : Overwritten fill t (reading t v) w ↔ Overwrites t v w := by
  induction t generalizing c fill with
  | pod scalar => exact iff_of_true (fun h => by cases h) trivial
  | chars => exact iff_of_true (fun h => by cases h) trivial
  | container t ih =>
      have hzip : (v.map (reading t)).zip w = (v.zip w).map (Prod.map (reading t) id) := by
        rw [← List.zip_map, List.map_id]
      show (∀ q ∈ (v.map (reading t)).zip w, Overwritten 0 t q.1 q.2) ↔ _
      rw [hzip, List.forall_mem_map]
      refine forall₂_congr fun q _ => ?_
      exact ih hplain 0 q.1 q.2
  | set cmp t ih =>
      show (∀ x ∈ w.items, x ∈ (Items.empty.insertAll v.items : OrderedSet cmp).items) ↔ _
      rw [v.insert_all_items]
      rfl
  | optional t ih => exact Iff.rfl
  | required t ih => cases hplain
  | sequence ts ih => exact ih hplain fill v w
  | struct ts members ih => exact ih hplain fill (members v) (members w)
  | cons t ts iht ihts =>
      have hboth := Bool.and_eq_true_iff.mp hplain
      exact and_congr (iht hboth.1 fill v.1 w.1) (ihts hboth.2 fill v.2 w.2)
  | _ => exact iff_of_true trivial trivial

/-! ## Whether the target matters -/

/-- On any stream the target does not matter exactly where the reading of the stream leaves nothing
of it. -/
theorem unpack_target_iff (t : Layout k α) (w : α) (fill : Byte) (s : Datastream) :
    unpack t w s = unpack t (construct fill t) s ↔
      ∀ p s', readValue t s = .ok (p, s') → Overwritten fill t p w := by
  rw [unpack_eq_put t w, unpack_eq_put t (construct fill t)]
  show (readValue t s >>= fun p => Except.ok (put t p.1 w, p.2)) =
    (readValue t s >>= fun p => Except.ok (put t p.1 (construct fill t), p.2)) ↔ _
  cases hread : readValue t s with
  | error fault => exact iff_of_true rfl fun p s' h => by cases h
  | ok q =>
      constructor
      · intro heq p s' h
        cases h
        exact (put_eq_iff fill t p w).mp (congrArg Prod.fst (Except.ok.inj heq))
      · intro h
        have hput := (put_eq_iff fill t q.1 w).mpr (h q.1 q.2 rfl)
        exact congrArg (fun x => Except.ok (x, q.2)) hput

/-- `raw::unpack` makes the same of a target as of a default-constructed one exactly where the
reading of the stream leaves nothing of it. For a value whose layout is plain, and whose encoding is
shorter than 2^32 bytes, this is so where no optional of the target stands in the place of one that
is not set, and no set of it holds another item. -/
theorem unpack_overwrites_iff (t : Layout .single α) (w : α) (fill : Byte) :
    (∀ s, unpack t w s = unpack t (construct fill t) s ↔
      ∀ p s', readValue t s = .ok (p, s') → Overwritten fill t p w) ∧
    ∀ v bytes, pack .pack t ([] : Text) v = some bytes → plain .pack t = true → Fits t v →
      bytes.length < 2 ^ 32 →
      (unpack t w (.new bytes) = unpack t (construct fill t) (.new bytes) ↔ Overwrites t v w) := by
  refine ⟨unpack_target_iff t w fill, ?_⟩
  intro v bytes hpack hplain hfits hlen
  have hcount := counted_of_fits t hplain hfits hpack hlen
  have hread := reads_reading t hplain hcount hpack (.new bytes) [] (List.append_nil _).symm
  rw [unpack_target_iff, ← overwritten_reading_iff t hplain fill v w]
  constructor
  · exact fun h => h _ _ hread
  · intro h p s' hp
    cases hread.symm.trans hp
    exact h

omit [Machine] in
/-- An optional that is not set leaves the one in the target. -/
theorem optional_survives :
    ¬ ∀ (_ : Machine) (α : Type) (t : Layout .single α) (v w : α) (fill : Byte) (bytes : Text),
      pack .pack t ([] : Text) v = some bytes →
        unpack t w (.new bytes) = unpack t (construct fill t) (.new bytes) := by
  intro h
  have hsame := h Machine.x86 _ (.optional .unsignedInt) none (some 5) 0 [0] rfl
  cases congrArg (fun r => r.map Prod.fst) hsame

end BoostRpc.Raw
