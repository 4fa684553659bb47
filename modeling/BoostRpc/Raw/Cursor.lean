import BoostRpc.Lts
import BoostRpc.Raw.Codec

/-!
# Bounds of the byte cursor

`read` and `write` compare the bytes that are left with the size as an `int32_t`. A size of 2^31
or more is negative there and passes the test where less is left. `cursor_lawful_iff` says, in every
state that a sequence of operations leads to, for which sizes the two stay within the buffer.
-/

namespace BoostRpc.Raw

open Lts

namespace Datastream

/-- `datastream::write` of `n` bytes: its result and the stream after it. -/
def write (n : UInt32) (d : List.Vector Byte n.toNat) (s : Datastream) :
    Except Fault (Bool × Datastream) :=
  -- The size is compared as an `int32_t`.
  if n.toInt32.toInt ≤ (s.data.length : Int) - s.pos then
    if s.pos + n.toNat ≤ s.data.length then
      .ok (true, ⟨s.data.take s.pos ++ d.toList ++ s.data.drop (s.pos + n.toNat), s.pos + n.toNat⟩)
    else .error .outOfBounds
  else .ok (false, s)

/-- `datastream::put`. -/
def put (c : Byte) (s : Datastream) : Bool × Datastream :=
  if s.pos < s.data.length then (true, ⟨s.data.set s.pos c, s.pos + 1⟩) else (false, s)

/-- `datastream::seekp`. -/
def seekp (p : UInt32) (s : Datastream) : Bool × Datastream :=
  (decide (p.toNat ≤ s.data.length), { s with pos := p.toNat })

/-- `m_end - m_pos`. -/
def left (s : Datastream) : Int := (s.data.length : Int) - s.pos

end Datastream

/-- A call of an operation of a `datastream`. -/
inductive Operation where
  | read (n : UInt32) (d : List.Vector Byte n.toNat)
  | write (n : UInt32) (d : List.Vector Byte n.toNat)
  | put (c : Byte)
  | get (c : Byte)
  | skip (n : UInt32)
  | seekp (p : UInt32)

/-- The stream after an operation, where `memcpy` has stayed within the buffer. -/
def Datastream.step (s : Datastream) : Operation → Result Datastream
  | .read n d =>
      match Datastream.read n d s with
      | .ok (_, s) => .next s
      | .error _ => .undefined
  | .write n d =>
      match s.write n d with
      | .ok (_, s) => .next s
      | .error _ => .undefined
  | .put c => .next (s.put c).2
  | .get c => .next (s.get c).2.2
  | .skip n => .next (s.skip n.toNat)
  | .seekp p => .next (s.seekp p).2

/-- The streams over buffers of less than 2^32 bytes. -/
def cursors : System Datastream Operation where
  start s := ∃ buffer, buffer.length < 2 ^ 32 ∧ s = .new buffer
  step := Datastream.step

/-- What a call that copies bytes should do: it stays within the buffer, succeeds exactly where
there is room, and leaves everything as it was before where it fails. -/
structure InBounds {α : Type} (room : Prop) (before : α) (outcome : Except Fault (Bool × α)) :
    Prop where
  inside : outcome ≠ .error .outOfBounds
  succeeds : (∃ after, outcome = .ok (true, after)) ↔ room
  fails : ∀ after, outcome = .ok (false, after) → after = before

/-- A `read` and a `write` of `n` bytes do what they should. -/
structure Lawful (s : Datastream) (n : UInt32) : Prop where
  read : ∀ d, InBounds (n.toNat ≤ s.left) (d, s)
    ((Datastream.read n d s).map fun p => (p.1.1, p.1.2, p.2))
  write : ∀ d, InBounds (n.toNat ≤ s.left) s (s.write n d)

/-- The size is positive as an `int32_t`, or so many bytes are left, or the cursor is too far
past the end for the test. -/
def Measured (s : Datastream) (n : UInt32) : Prop :=
  n.toNat < 2 ^ 31 ∨ n.toNat ≤ s.left ∨ s.left < n.toNat - 2 ^ 32

/-! ## The test of `read` and `write` -/

theorem to_int32 (n : UInt32) :
    n.toInt32.toInt = if n.toNat < 2 ^ 31 then (n.toNat : Int) else n.toNat - 2 ^ 32 := by
  show n.toBitVec.toInt =
    if n.toBitVec.toNat < 2 ^ 31 then (n.toBitVec.toNat : Int) else n.toBitVec.toNat - 2 ^ 32
  rw [BitVec.toInt_eq_toNat_cond]
  split <;> split <;> omega

/-- The test says what it should exactly where the size is measured right. -/
theorem measured_iff (s : Datastream) (n : UInt32) :
    Measured s n ↔ (n.toInt32.toInt ≤ s.left → n.toNat ≤ s.left) := by
  rw [Measured, to_int32]
  have hlt : n.toNat < 2 ^ 32 := n.toNat_lt
  split <;> omega

/-- Where as many bytes are left, the test succeeds. -/
theorem test_of_left {s : Datastream} {n : UInt32} (h : n.toNat ≤ s.left) :
    n.toInt32.toInt ≤ s.left := Int.le_trans (Datastream.to_int32_le n) h

theorem left_iff (s : Datastream) (n : UInt32) :
    (n.toNat : Int) ≤ s.left ↔ s.pos + n.toNat ≤ s.data.length := by
  rw [Datastream.left]
  omega

section

variable {s : Datastream} {n : UInt32} (d : List.Vector Byte n.toNat)

/-- `read` where its test fails. -/
theorem read_refused (h : ¬ n.toInt32.toInt ≤ s.left) :
    Datastream.read n d s = .ok ((false, d), s) := by
  unfold Datastream.left at h
  rw [Datastream.read, if_neg h]

/-- `read` where enough is left. -/
theorem read_granted (h : n.toNat ≤ s.left) :
    ∃ d', Datastream.read n d s = .ok ((true, d'), s.skip n.toNat) := by
  have htest := test_of_left h
  unfold Datastream.left at htest
  rw [Datastream.read, if_pos htest, dif_pos ((left_iff s n).mp h)]
  exact ⟨_, rfl⟩

/-- `read` where its test succeeds and less is left. -/
theorem read_outside (htest : n.toInt32.toInt ≤ s.left) (h : ¬ n.toNat ≤ s.left) :
    Datastream.read n d s = .error .outOfBounds := by
  unfold Datastream.left at htest
  rw [Datastream.read, if_pos htest, dif_neg (mt (left_iff s n).mpr h)]

theorem write_refused (h : ¬ n.toInt32.toInt ≤ s.left) : s.write n d = .ok (false, s) := by
  unfold Datastream.left at h
  rw [Datastream.write, if_neg h]

theorem write_granted (h : n.toNat ≤ s.left) : ∃ s', s.write n d = .ok (true, s') := by
  have htest := test_of_left h
  unfold Datastream.left at htest
  rw [Datastream.write, if_pos htest, if_pos ((left_iff s n).mp h)]
  exact ⟨_, rfl⟩

theorem write_outside (htest : n.toInt32.toInt ≤ s.left) (h : ¬ n.toNat ≤ s.left) :
    s.write n d = .error .outOfBounds := by
  unfold Datastream.left at htest
  rw [Datastream.write, if_pos htest, if_neg (mt (left_iff s n).mpr h)]

end

theorem InBounds.granted {α : Type} {room : Prop} (before after : α) (h : room) :
    InBounds room before (.ok (true, after)) where
  inside := nofun
  succeeds := ⟨fun _ => h, fun _ => ⟨after, rfl⟩⟩
  fails := nofun

theorem InBounds.refused {α : Type} {room : Prop} (before : α) (h : ¬ room) :
    InBounds room before (.ok (false, before)) where
  inside := nofun
  succeeds := ⟨nofun, fun hroom => absurd hroom h⟩
  fails := by
    intro after hafter
    cases hafter
    rfl

/-- Both operations are lawful for exactly the sizes that are measured right. -/
theorem lawful_iff (s : Datastream) (n : UInt32) : Lawful s n ↔ Measured s n := by
  rw [measured_iff]
  constructor
  · intro h htest
    by_contra hleft
    -- the bytes that `read` should leave alone do not matter
    have hread := (h.read (List.Vector.replicate _ 0)).inside
    rw [read_outside _ htest hleft] at hread
    exact hread rfl
  · intro h
    by_cases hleft : n.toNat ≤ s.left
    · refine ⟨fun d => ?_, fun d => ?_⟩
      · obtain ⟨d', hread⟩ := read_granted d hleft
        rw [hread]
        exact .granted _ _ hleft
      · obtain ⟨s', hwrite⟩ := write_granted d hleft
        rw [hwrite]
        exact .granted _ _ hleft
    · have htest := mt h hleft
      refine ⟨fun d => ?_, fun d => ?_⟩
      · rw [read_refused d htest]
        exact .refused _ hleft
      · rw [write_refused d htest]
        exact .refused _ hleft

/-! ## The size of a vector -/

section

variable [Machine]

/-- A variable-length integer is read byte by byte. -/
theorem get_groups_fault {count : Nat → Nat} {fuel : Nat} {s : Datastream} {v : Nat} {b : Byte}
    {shift : Nat} {fault : Fault} (h : getGroups count fuel s v b shift = .error fault) :
    fault = .endless := by
  induction fuel generalizing s v b shift with
  | zero =>
      cases h
      rfl
  | succ fuel ih =>
      simp only [getGroups] at h
      split at h
      · cases h
      · exact ih h

theorem unpack_unsigned_fault {s : Datastream} {fault : Fault}
    (h : unpackUnsigned s = .error fault) : fault = .endless := by
  change (readGroups (· % 256) s >>= fun p => Except.ok (UInt32.ofNat p.1, p.2)) = _ at h
  cases hread : readGroups (· % 256) s with
  | error other =>
      rw [hread] at h
      cases h
      exact get_groups_fault hread
  | ok p =>
      rw [hread] at h
      cases h

omit [Machine] in
theorem length_resized (v : Text) (n : UInt32) : (resize n.toNat 0 v).length = n.toNat :=
  length_resize n.toNat 0 v

/-- The memory of a vector after `resize`. -/
def resized (v : Text) (n : UInt32) : List.Vector Byte n.toNat :=
  ⟨resize n.toNat 0 v, length_resized v n⟩

/-- The bytes of a vector are read behind its size. -/
theorem unpack_chars_of_size {s s' : Datastream} {n : UInt32} (v : Text)
    (hsize : unpackUnsigned s = .ok (n, s')) :
    unpackChars v s =
      if n.toNat = 0 then .ok ((resized v n).toList, s')
      else (Datastream.read n (resized v n) s').map fun p => (p.1.2.toList, p.2) := by
  change (unpackUnsigned s >>= _) = _
  rw [hsize]
  simp only [bind, Except.bind]
  by_cases hn : n.toNat = 0
  · rw [if_pos hn, if_pos hn]
    rfl
  · rw [if_neg hn, if_neg hn]
    change (Datastream.read n (resized v n) s' >>= fun p => Except.ok (p.1.2.toList, p.2)) = _
    cases Datastream.read n (resized v n) s' <;> rfl

/-- `unpack` of a `std::vector<char>` leaves the buffer exactly where the size that it has read is
not measured right. -/
theorem unpack_chars_inside (v : Text) (s : Datastream) :
    unpackChars v s ≠ .error .outOfBounds ↔
      ∀ n s', unpackUnsigned s = .ok (n, s') → Measured s' n := by
  cases hsize : unpackUnsigned s with
  | error fault =>
      have hread : unpackChars v s = .error fault := by
        change (unpackUnsigned s >>= _) = _
        rw [hsize]
        rfl
      rw [hread, unpack_unsigned_fault hsize]
      exact ⟨fun _ => nofun, fun _ => nofun⟩
  | ok p =>
      obtain ⟨n, s'⟩ := p
      have hmeasured : (∀ m t, Except.ok (n, s') = (.ok (m, t) : Except Fault _) → Measured t m) ↔
          Measured s' n := by
        constructor
        · exact fun h => h n s' rfl
        · intro h m t heq
          cases heq
          exact h
      rw [hmeasured, unpack_chars_of_size v hsize]
      by_cases hn : n.toNat = 0
      · rw [if_pos hn]
        exact ⟨fun _ => .inl (by omega), fun _ => nofun⟩
      · rw [if_neg hn, measured_iff]
        constructor
        · intro h htest
          by_contra hleft
          rw [read_outside _ htest hleft] at h
          exact h rfl
        · intro h
          by_cases hleft : n.toNat ≤ s'.left
          · obtain ⟨d, hread⟩ := read_granted (resized v n) hleft
            rw [hread]
            exact nofun
          · rw [read_refused _ (mt h hleft)]
            exact nofun

end

/-! ## After any sequence of operations -/

/-- A call of `read` that returns moves the cursor at most. -/
theorem read_data {n : UInt32} {d : List.Vector Byte n.toNat} {s s' : Datastream}
    {result : Bool × List.Vector Byte n.toNat} (h : Datastream.read n d s = .ok (result, s')) :
    s'.data = s.data := by
  unfold Datastream.read at h
  split at h
  · split at h
    · cases h
      rfl
    · cases h
  · cases h
    rfl

/-- A call of `write` that returns leaves the length of the buffer as it is. -/
theorem length_write {n : UInt32} {d : List.Vector Byte n.toNat} {s s' : Datastream} {result : Bool}
    (h : s.write n d = .ok (result, s')) : s'.data.length = s.data.length := by
  unfold Datastream.write at h
  split at h
  · split at h
    · rename_i hroom
      cases h
      simp only [List.length_append, List.length_take, List.length_drop, d.toList_length]
      omega
    · cases h
  · cases h
    rfl

/-- No operation changes the length of the buffer. -/
theorem length_step {s s' : Datastream} {op : Operation} (h : s.step op = .next s') :
    s'.data.length = s.data.length := by
  cases op with
  | read n d =>
      simp only [Datastream.step] at h
      split at h
      · rename_i result t hread
        cases h
        rw [read_data hread]
      · cases h
  | write n d =>
      simp only [Datastream.step] at h
      split at h
      · rename_i result t hwrite
        cases h
        exact length_write hwrite
      · cases h
  | put c =>
      cases h
      unfold Datastream.put
      split
      · exact List.length_set
      · rfl
  | get c =>
      cases h
      unfold Datastream.get
      split <;> rfl
  | skip n =>
      cases h
      rfl
  | seekp p =>
      cases h
      rfl

/-- The buffer of a stream keeps its length, whatever has been called. -/
theorem length_run {es : List Operation} {s : Datastream}
    (h : Run cursors (fun _ _ => True) es s) : s.data.length < 2 ^ 32 := by
  apply Run.invariant (P := fun s => s.data.length < 2 ^ 32) ?_ ?_ h
  · intro s hstart
    obtain ⟨buffer, hbuffer, rfl⟩ := hstart
    exact hbuffer
  · intro s op s' hs _ hnext
    rw [length_step hnext]
    exact hs

theorem get_succeeds (s : Datastream) (c : Byte) : (s.get c).1 = true ↔ 1 ≤ s.left := by
  have hleft : 1 ≤ s.left ↔ s.pos < s.data.length := by
    unfold Datastream.left
    omega
  rw [hleft, Datastream.get]
  split <;> simp_all

theorem put_succeeds (s : Datastream) (c : Byte) : (s.put c).1 = true ↔ 1 ≤ s.left := by
  have hleft : 1 ≤ s.left ↔ s.pos < s.data.length := by
    unfold Datastream.left
    omega
  rw [hleft, Datastream.put]
  split <;> simp_all

/-- After any sequence of operations, `read` and `write` do what they should for exactly the sizes
that are measured right, `get` and `put` always, and a `std::vector<char>` is read within the
buffer exactly where its size is measured right. -/
theorem cursor_lawful_iff [Machine] {es : List Operation} {s : Datastream}
    (h : Run cursors (fun _ _ => True) es s) :
    s.data.length < 2 ^ 32 ∧ (∀ n, Lawful s n ↔ Measured s n) ∧
      (∀ c, ((s.get c).1 = true ↔ 1 ≤ s.left) ∧ ((s.put c).1 = true ↔ 1 ≤ s.left)) ∧
      ∀ v, unpackChars v s ≠ .error .outOfBounds ↔
        ∀ n s', unpackUnsigned s = .ok (n, s') → Measured s' n :=
  ⟨length_run h, lawful_iff s, fun c => ⟨get_succeeds s c, put_succeeds s c⟩,
    fun v => unpack_chars_inside v s⟩

/-- Reading one byte at the end of a buffer of one byte. -/
theorem cursor_lawful_end : Lawful ((Datastream.new [7]).skip 1) 1 := by
  let _ := Machine.x86
  have hstart : cursors.start (.new [7]) := ⟨[7], by decide, rfl⟩
  have hrun : Run cursors (fun _ _ => True) [.skip 1] ((Datastream.new [7]).skip 1) :=
    .step [] _ _ (.skip 1) (.start _ hstart) trivial rfl
  exact ((cursor_lawful_iff hrun).2.1 1).mpr (.inl (by decide))

/-- A size of 2^31 takes `read` out of a buffer of one byte, and `unpack` of a `std::vector<char>`
out of a buffer that holds just this size. -/
theorem read_past_end :
    letI := Machine.x86
    Run cursors (fun _ _ => True) [] (.new [7]) ∧ ¬ Lawful (.new [7]) 2147483648 ∧
      (∀ d, Datastream.read 2147483648 d (.new [7]) = .error .outOfBounds) ∧
      unpackChars [] (.new [128, 128, 128, 128, 8]) = .error .outOfBounds := by
  let _ := Machine.x86
  have houtside : ∀ d, Datastream.read 2147483648 d (.new [7]) = .error .outOfBounds :=
    fun d => read_outside d (by decide) (by decide)
  refine ⟨.start _ ⟨[7], by decide, rfl⟩, ?_, houtside, ?_⟩
  · intro h
    have hread := (h.read (List.Vector.replicate _ 0)).inside
    rw [houtside] at hread
    exact hread rfl
  · have hsize : unpackUnsigned (.new [128, 128, 128, 128, 8]) =
        .ok (2147483648, ⟨[128, 128, 128, 128, 8], 5⟩) := by decide
    rw [unpack_chars_of_size [] hsize, if_neg (by decide),
      read_outside _ (by decide) (by decide)]
    rfl

end BoostRpc.Raw
