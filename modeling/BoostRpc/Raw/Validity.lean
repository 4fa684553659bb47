import BoostRpc.Raw.Cursor

/-!
# What `valid` tells

`get` reports a failure by leaving the cursor behind the end, `read`, `write` and `put` by their
results, which the stream operators drop. `valid` looks at the cursor alone, so that it knows of the
failures of `get` only, behind which `remaining` wraps around. `valid_tells_iff` says after which
operations the two tell what they should: those for which there was room throughout.
-/

namespace BoostRpc.Raw

namespace Datastream

/-- `datastream::valid`; the cursor is never in front of the start. -/
def valid (s : Datastream) : Bool := decide (s.pos ≤ s.data.length)

/-- `datastream::remaining` -/
def remaining (s : Datastream) : UInt32 := UInt32.ofInt s.left

/-- What a call of an operation returns, and the stream after it. -/
def attempt (s : Datastream) : Operation → Except Fault (Bool × Datastream)
  | .read n d => (Datastream.read n d s).map fun p => (p.1.1, p.2)
  | .write n d => s.write n d
  | .put c => .ok (s.put c)
  | .get c => .ok ((s.get c).1, (s.get c).2.2)
  -- `skip` returns nothing.
  | .skip n => .ok (true, s.skip n.toNat)
  | .seekp p => .ok (s.seekp p)

/-- Operations one after the other: whether all have found room or bytes enough, and the stream
after them. -/
def attempts (s : Datastream) : List Operation → Except Fault (Bool × Datastream)
  | [] => .ok (true, s)
  | op :: ops =>
      match s.attempt op with
      | .ok (found, s) =>
          match attempts s ops with
          | .ok (all, s) => .ok (found && all, s)
          | .error fault => .error fault
      | .error fault => .error fault

end Datastream

/-- `get`, `put`, `read` and `write`. The operators `>>` and `<<` of a fundamental type are a `read`
and a `write` of its bytes. -/
def Operation.transfers : Operation → Bool
  | .read _ _ => true
  | .write _ _ => true
  | .put _ => true
  | .get _ => true
  | .skip _ => false
  | .seekp _ => false

/-- The bytes, or the room, that an operation needs. -/
def Operation.need : Operation → Nat
  | .read n _ => n.toNat
  | .write n _ => n.toNat
  | .put _ => 1
  | .get _ => 1
  | .skip _ => 0
  | .seekp _ => 0

/-- After these operations on a stream over the buffer, `valid` tells whether all of them have found
enough, and `remaining` is the number of bytes that are left. -/
def Tells (buffer : Text) (ops : List Operation) : Prop :=
  ∃ all s, (Datastream.new buffer).attempts ops = .ok (all, s) ∧ s.valid = all ∧
    s.remaining.toNat = s.data.length - s.pos

/-- What operations need together. -/
def needs (ops : List Operation) : Nat := (ops.map Operation.need).sum

@[simp] theorem needs_nil : needs [] = 0 := rfl

@[simp] theorem needs_cons (op : Operation) (ops : List Operation) :
    needs (op :: ops) = op.need + needs ops := by
  simp [needs]

@[simp] theorem needs_append (ops ops' : List Operation) :
    needs (ops ++ ops') = needs ops + needs ops' := by
  simp [needs]

/-! ## One operation -/

section

variable {s s' : Datastream} {op : Operation} {found : Bool}

/-- An operation that finds what it needs moves the cursor by as much. -/
theorem attempt_granted (hop : op.transfers = true) (h : (op.need : Int) ≤ s.left) :
    ∃ s', s.attempt op = .ok (true, s') ∧ s'.data.length = s.data.length ∧
      s'.pos = s.pos + op.need := by
  cases op with
  | read n d =>
      obtain ⟨d', hread⟩ := read_granted d h
      exact ⟨s.skip n.toNat, by rw [Datastream.attempt, hread]; rfl, rfl, rfl⟩
  | write n d =>
      have htest := test_of_left h
      have hroom := (left_iff s n).mp h
      unfold Datastream.left at htest
      have hwrite : s.write n d =
          .ok (true, ⟨s.data.take s.pos ++ d.toList ++ s.data.drop (s.pos + n.toNat),
            s.pos + n.toNat⟩) := by
        rw [Datastream.write, if_pos htest, if_pos hroom]
      exact ⟨_, hwrite, length_write hwrite, rfl⟩
  | put c =>
      have hlt : s.pos < s.data.length := by
        simp only [Operation.need, Datastream.left] at h
        omega
      refine ⟨⟨s.data.set s.pos c, s.pos + 1⟩, ?_, List.length_set, rfl⟩
      rw [Datastream.attempt, Datastream.put, if_pos hlt]
  | get c =>
      have hlt : s.pos < s.data.length := by
        simp only [Operation.need, Datastream.left] at h
        omega
      refine ⟨s.skip 1, ?_, rfl, rfl⟩
      rw [Datastream.attempt, Datastream.get, dif_pos hlt]
  | skip n => cases hop
  | seekp p => cases hop

/-- An operation that does not find what it needs fails, and leaves the cursor where it is or, if it
is a `get`, one byte further on. -/
theorem attempt_refused (hop : op.transfers = true) (h : ¬ (op.need : Int) ≤ s.left)
    (hattempt : s.attempt op = .ok (found, s')) :
    found = false ∧ s'.data = s.data ∧ (s'.pos = s.pos ∨ s'.pos = s.pos + 1) := by
  cases op with
  | read n d =>
      by_cases htest : n.toInt32.toInt ≤ s.left
      · rw [Datastream.attempt, read_outside d htest h] at hattempt
        cases hattempt
      · rw [Datastream.attempt, read_refused d htest] at hattempt
        cases hattempt
        exact ⟨rfl, rfl, .inl rfl⟩
  | write n d =>
      by_cases htest : n.toInt32.toInt ≤ s.left
      · rw [Datastream.attempt, write_outside d htest h] at hattempt
        cases hattempt
      · rw [Datastream.attempt, write_refused d htest] at hattempt
        cases hattempt
        exact ⟨rfl, rfl, .inl rfl⟩
  | put c =>
      have hge : ¬ s.pos < s.data.length := by
        simp only [Operation.need, Datastream.left] at h
        omega
      rw [Datastream.attempt, Datastream.put, if_neg hge] at hattempt
      cases hattempt
      exact ⟨rfl, rfl, .inl rfl⟩
  | get c =>
      have hge : ¬ s.pos < s.data.length := by
        simp only [Operation.need, Datastream.left] at h
        omega
      rw [Datastream.attempt, Datastream.get, dif_neg hge] at hattempt
      cases hattempt
      exact ⟨rfl, rfl, .inr rfl⟩
  | skip n => cases hop
  | seekp p => cases hop

/-- An operation moves the cursor within the buffer, or by one byte. -/
theorem attempt_pos (hop : op.transfers = true) (hattempt : s.attempt op = .ok (found, s')) :
    s'.data.length = s.data.length ∧ s'.pos ≤ max s.pos s.data.length + 1 := by
  by_cases h : (op.need : Int) ≤ s.left
  · obtain ⟨t, ht, hlength, hpos⟩ := attempt_granted hop h
    cases ht.symm.trans hattempt
    simp only [Datastream.left] at h
    refine ⟨hlength, ?_⟩
    omega
  · obtain ⟨-, hdata, hpos⟩ := attempt_refused hop h hattempt
    refine ⟨by rw [hdata], ?_⟩
    omega

end

/-! ## Several operations -/

section

variable {s s' : Datastream} {op : Operation} {ops : List Operation} {all : Bool}

/-- The first of several operations that return has returned, and the others after it. -/
theorem attempts_cons (h : s.attempts (op :: ops) = .ok (all, s')) :
    ∃ found t rest, s.attempt op = .ok (found, t) ∧ t.attempts ops = .ok (rest, s') ∧
      all = (found && rest) := by
  simp only [Datastream.attempts] at h
  split at h
  · rename_i found t hfirst
    split at h
    · rename_i rest t' hrest
      cases h
      exact ⟨found, t, rest, hfirst, hrest, rfl⟩
    · cases h
  · cases h

/-- Operations that find what they need together. -/
theorem attempts_granted (hops : ∀ op ∈ ops, op.transfers = true)
    (h : s.pos + needs ops ≤ s.data.length) :
    ∃ s', s.attempts ops = .ok (true, s') ∧ s'.data.length = s.data.length ∧
      s'.pos = s.pos + needs ops := by
  induction ops generalizing s with
  | nil => exact ⟨s, rfl, rfl, rfl⟩
  | cons op ops ih =>
      rw [needs_cons] at h
      have hneed : (op.need : Int) ≤ s.left := by
        rw [Datastream.left]
        omega
      obtain ⟨t, ht, hlength, hpos⟩ := attempt_granted (hops op List.mem_cons_self) hneed
      obtain ⟨s', hs', hlength', hpos'⟩ :=
        ih (fun op' hop => hops op' (List.mem_cons_of_mem op hop)) (s := t) (by omega)
      refine ⟨s', ?_, by rw [hlength', hlength], by rw [hpos', hpos, needs_cons]; omega⟩
      rw [Datastream.attempts, ht]
      show (match t.attempts ops with
        | .ok (all, s) => Except.ok (true && all, s)
        | .error fault => .error fault) = _
      rw [hs']
      rfl

/-- Operations that do not find what they need together do not all succeed. -/
theorem attempts_refused (hops : ∀ op ∈ ops, op.transfers = true)
    (hinside : s.pos ≤ s.data.length) (h : ¬ s.pos + needs ops ≤ s.data.length)
    (hattempts : s.attempts ops = .ok (all, s')) : all = false := by
  induction ops generalizing s all with
  | nil => exact absurd hinside h
  | cons op ops ih =>
      obtain ⟨found, t, rest, hfirst, hrest, rfl⟩ := attempts_cons hattempts
      have hop := hops op List.mem_cons_self
      by_cases hneed : (op.need : Int) ≤ s.left
      · obtain ⟨t', ht', hlength, hpos⟩ := attempt_granted hop hneed
        cases ht'.symm.trans hfirst
        rw [needs_cons] at h
        simp only [Datastream.left] at hneed
        have hfalse := ih (fun op' hop => hops op' (List.mem_cons_of_mem op hop)) (by omega)
          (by omega) hrest
        rw [hfalse, Bool.and_false]
      · obtain ⟨rfl, -, -⟩ := attempt_refused hop hneed hfirst
        exact Bool.false_and rest

/-- Operations take the cursor no further past the end than by one byte each. -/
theorem attempts_pos (hops : ∀ op ∈ ops, op.transfers = true)
    (hattempts : s.attempts ops = .ok (all, s')) :
    s'.data.length = s.data.length ∧ s'.pos ≤ max s.pos s.data.length + ops.length := by
  induction ops generalizing s all with
  | nil =>
      cases hattempts
      exact ⟨rfl, by simp⟩
  | cons op ops ih =>
      obtain ⟨found, t, rest, hfirst, hrest, rfl⟩ := attempts_cons hattempts
      obtain ⟨hlength, hpos⟩ := attempt_pos (hops op List.mem_cons_self) hfirst
      obtain ⟨hlength', hpos'⟩ := ih (fun op' hop => hops op' (List.mem_cons_of_mem op hop)) hrest
      rw [List.length_cons]
      refine ⟨by rw [hlength', hlength], ?_⟩
      omega

end

/-! ## What the tests tell -/

/-- `remaining` before the end. -/
theorem remaining_inside {s : Datastream} (hlen : s.data.length < 2 ^ 32)
    (h : s.pos ≤ s.data.length) : s.remaining.toNat = s.data.length - s.pos := by
  rw [Datastream.remaining, Datastream.left, UInt32.ofInt, UInt32.toNat_ofNat']
  omega

/-- `remaining` behind the end wraps around. -/
theorem remaining_outside {s : Datastream} (h : s.data.length < s.pos)
    (hpos : s.pos < s.data.length + 2 ^ 32) : 0 < s.remaining.toNat := by
  rw [Datastream.remaining, Datastream.left, UInt32.ofInt, UInt32.toNat_ofNat']
  omega

variable {buffer : Text} {ops : List Operation}

/-- The tests tell where all operations succeed. -/
theorem tells_of_fits (hbuffer : buffer.length < 2 ^ 32)
    (hops : ∀ op ∈ ops, op.transfers = true) (h : needs ops ≤ buffer.length) :
    Tells buffer ops := by
  have hfits : (Datastream.new buffer).pos + needs ops ≤ (Datastream.new buffer).data.length := by
    simpa [Datastream.new] using h
  obtain ⟨s, hs, hlength, hpos⟩ := attempts_granted hops hfits
  rw [← hpos, ← hlength] at hfits
  rw [show (Datastream.new buffer).data = buffer from rfl] at hlength
  exact ⟨true, s, hs, decide_eq_true hfits, remaining_inside (by omega) hfits⟩

/-- They do not tell where one fails and the cursor is less than 2^32 bytes behind the end. -/
theorem not_tells_of_near (hops : ∀ op ∈ ops, op.transfers = true)
    (h : ¬ needs ops ≤ buffer.length)
    (hnear : ∀ all s, (Datastream.new buffer).attempts ops = .ok (all, s) →
      s.pos < s.data.length + 2 ^ 32) : ¬ Tells buffer ops := by
  intro htells
  obtain ⟨all, s, hs, hvalid, hremaining⟩ := htells
  have hfalse := attempts_refused hops (s := .new buffer) (Nat.zero_le _)
    (by simpa [Datastream.new] using h) hs
  rw [hfalse] at hvalid
  have hpast : s.data.length < s.pos := Nat.lt_of_not_le (of_decide_eq_false hvalid)
  have hwraps := remaining_outside hpast (hnear all s hs)
  omega

/-- The cursor is no further behind the end than there were operations. -/
theorem pos_new (hops : ∀ op ∈ ops, op.transfers = true) {all : Bool} {s : Datastream}
    (h : (Datastream.new buffer).attempts ops = .ok (all, s)) :
    s.data.length = buffer.length ∧ s.pos ≤ buffer.length + ops.length := by
  have hpos := attempts_pos hops h
  simpa [Datastream.new] using hpos

/-- Operations with one more operation after them. -/
theorem attempts_concat {s s' : Datastream} {op : Operation} {all : Bool}
    (hops : ∀ op ∈ ops, op.transfers = true) (hfits : s.pos + needs ops ≤ s.data.length)
    (h : s.attempts (ops ++ [op]) = .ok (all, s')) :
    ∃ (t : Datastream) (found : Bool), t.data.length = s.data.length ∧
      t.pos = s.pos + needs ops ∧ t.attempt op = .ok (found, s') := by
  induction ops generalizing s all with
  | nil =>
      obtain ⟨found, t, rest, hfirst, hrest, -⟩ := attempts_cons h
      cases hrest
      exact ⟨s, found, rfl, rfl, hfirst⟩
  | cons first ops ih =>
      rw [needs_cons] at hfits
      obtain ⟨found, t, rest, hfirst, hrest, -⟩ := attempts_cons h
      have hneed : (first.need : Int) ≤ s.left := by
        rw [Datastream.left]
        omega
      obtain ⟨t', ht', hlength, hpos⟩ := attempt_granted (hops first List.mem_cons_self) hneed
      cases ht'.symm.trans hfirst
      obtain ⟨u, found, hulength, hupos, hu⟩ :=
        ih (fun op' hop => hops op' (List.mem_cons_of_mem first hop)) (by omega) hrest
      exact ⟨u, found, by omega, by rw [needs_cons]; omega, hu⟩

/-- Where the tests tell after each of some operations, all of these succeed: the first that fails
leaves the cursor at most one byte behind the end. -/
theorem fits_of_tells (hops : ∀ op ∈ ops, op.transfers = true)
    (h : ∀ past, past <+: ops → Tells buffer past) : needs ops ≤ buffer.length := by
  induction ops using List.reverseRecOn with
  | nil => exact Nat.zero_le _
  | append_singleton ops op ih =>
      have hpast : ∀ op' ∈ ops, op'.transfers = true := fun op' hop =>
        hops op' (List.mem_append_left [op] hop)
      have hfits := ih hpast fun past hle => h past (hle.trans (List.prefix_append ops [op]))
      by_contra hfails
      refine not_tells_of_near hops hfails ?_ (h _ (List.prefix_refl _))
      intro all s hs
      obtain ⟨t, found, hlength, hpos, hattempt⟩ :=
        attempts_concat hpast (by simpa [Datastream.new] using hfits) hs
      have hlast := attempt_pos (hops op (by simp)) hattempt
      simp only [Datastream.new] at hlength hpos
      omega

/-- After each of some operations the tests tell what they should if and only if there is enough for
all of them. After less than 2^32 operations they tell what they should only then. -/
theorem valid_tells_iff (hbuffer : buffer.length < 2 ^ 32)
    (hops : ∀ op ∈ ops, op.transfers = true) :
    ((∀ past, past <+: ops → Tells buffer past) ↔ needs ops ≤ buffer.length) ∧
      (ops.length < 2 ^ 32 → (Tells buffer ops ↔ needs ops ≤ buffer.length)) := by
  refine ⟨⟨fits_of_tells hops, ?_⟩, ?_⟩
  · rintro hfits past ⟨rest, rfl⟩
    rw [needs_append] at hfits
    exact tells_of_fits hbuffer (fun op hop => hops op (List.mem_append_left rest hop)) (by omega)
  · intro hfew
    refine ⟨fun htells => ?_, tells_of_fits hbuffer hops⟩
    by_contra hfails
    refine not_tells_of_near hops hfails ?_ htells
    intro all s hs
    obtain ⟨hlength, hpos⟩ := pos_new hops hs
    omega

/-- A byte is put and the end is reached. -/
theorem valid_tells_put : Tells [7] [.put 8] :=
  ((valid_tells_iff (by decide) (by simp [Operation.transfers])).2 (by decide)).mpr (by decide)

/-- A `read` of one byte from an empty buffer fails and `valid` is true. A `get` fails and 2^32 - 1
bytes remain. -/
theorem valid_after_failure :
    (Datastream.new []).attempts [.read 1 ⟨[0], rfl⟩] = .ok (false, .new []) ∧
      (Datastream.new []).valid = true ∧ ¬ Tells [] [.read 1 ⟨[0], rfl⟩] ∧
      (Datastream.new []).attempts [.get 0] = .ok (false, ⟨[], 1⟩) ∧
      (Datastream.mk [] 1).remaining = 4294967295 ∧ ¬ Tells [] [.get 0] := by
  have hread : (Datastream.new []).attempts [.read 1 ⟨[0], rfl⟩] = .ok (false, .new []) := rfl
  have hget : (Datastream.new []).attempts [.get 0] = .ok (false, ⟨[], 1⟩) := rfl
  have hremaining : (Datastream.mk [] 1).remaining = 4294967295 := by decide
  refine ⟨hread, rfl, ?_, hget, hremaining, ?_⟩
  · intro h
    obtain ⟨all, s, hs, hvalid, -⟩ := h
    cases hread.symm.trans hs
    cases hvalid
  · intro h
    obtain ⟨all, s, hs, -, hleft⟩ := h
    cases hget.symm.trans hs
    rw [hremaining] at hleft
    cases hleft

end BoostRpc.Raw
