import BoostRpc.Text
import Mathlib.Data.Vector.Basic

/-!
# Byte streams

`datastream<const char*>`, the cursor that the raw decoder reads from, and the two operations
that the raw encoder asks of a stream to write to. `Datastream.rest` is what a reader of valid
input sees of the cursor. `Reads` says that a reader takes certain bytes off it and what it makes
of them; `Reads.bind` is the rule for two readers in a row.
-/

namespace BoostRpc.Raw

/-- What a template parameter `Stream` offers to `pack`. Its results are ignored. -/
class OutStream (σ : Type) where
  put : σ → Byte → σ
  write : σ → Text → σ

/-- A stream without bounds, such as a `std::stringstream`, as the bytes written to it. -/
instance : OutStream Text where
  put s c := s ++ [c]
  write s d := s ++ d

@[simp] theorem put_text (s : Text) (c : Byte) : OutStream.put s c = s ++ [c] := rfl

@[simp] theorem write_text (s d : Text) : OutStream.write s d = s ++ d := rfl

/-- How a call of `unpack` can fail to come back with a value. -/
inductive Fault where
  /-- `memcpy` touches memory outside of the buffer. -/
  | outOfBounds
  /-- A loop never ends. -/
  | endless
  /-- There is no such call: its instantiation does not compile. -/
  | illFormed
  deriving DecidableEq

/-- `datastream<const char*>`. -/
structure Datastream where
  /-- The bytes from `m_start` to `m_end`. -/
  data : Text
  /-- `m_pos - m_start`; a failed `get` moves it past the end. -/
  pos : Nat
  deriving DecidableEq

/-- Code that reads from a stream and returns a value, or does not. -/
abbrev Reader : Type → Type := StateT Datastream (Except Fault)

namespace Datastream

/-- The stream over a buffer, at its start. The constructor takes the size of the buffer as a
`uint32_t`, so that it makes streams of less than 2^32 bytes only. -/
def new (data : Text) : Datastream := ⟨data, 0⟩

/-- `datastream::skip`. -/
def skip (s : Datastream) (n : Nat) : Datastream := { s with pos := s.pos + n }

/-- `datastream::get`: its result, the byte it leaves in `c` and the stream after it. -/
def get (s : Datastream) (c : Byte) : Bool × Byte × Datastream :=
  if h : s.pos < s.data.length then (true, s.data[s.pos], s.skip 1) else (false, c, s.skip 1)

/-- `datastream::read` of `n` bytes: its result and the bytes it leaves in `d`. -/
def read (n : UInt32) (d : List.Vector Byte n.toNat) : Reader (Bool × List.Vector Byte n.toNat) :=
  fun s =>
    -- The size is compared as an `int32_t`.
    if n.toInt32.toInt ≤ (s.data.length : Int) - s.pos then
      if h : s.pos + n.toNat ≤ s.data.length then
        .ok ((true, ⟨(s.data.drop s.pos).take n.toNat, by simp; omega⟩), s.skip n.toNat)
      else .error .outOfBounds
    else .ok ((false, d), s)

/-- The bytes that are left. -/
def rest (s : Datastream) : Text := s.data.drop s.pos

@[simp] theorem rest_new (data : Text) : (new data).rest = data := rfl

@[simp] theorem skip_skip (s : Datastream) (m n : Nat) : (s.skip m).skip n = s.skip (m + n) := by
  simp [skip, Nat.add_assoc]

theorem rest_skip (s : Datastream) (n : Nat) : (s.skip n).rest = s.rest.drop n := by
  simp [rest, skip, List.drop_drop]

/-- After the bytes of a prefix the rest is left. -/
theorem rest_skip_append {s : Datastream} {bs r : Text} (h : s.rest = bs ++ r) :
    (s.skip bs.length).rest = r := by
  rw [rest_skip, h, List.drop_left]

theorem rest_skip_cons {s : Datastream} {b : Byte} {r : Text} (h : s.rest = b :: r) :
    (s.skip 1).rest = r := by
  rw [rest_skip, h, List.drop_one, List.tail_cons]

/-- `get` takes the next byte. -/
theorem get_rest {s : Datastream} {b : Byte} {r : Text} (h : s.rest = b :: r) (c : Byte) :
    s.get c = (true, b, s.skip 1) := by
  have hlt : s.pos < s.data.length := by
    have hlen := congrArg List.length h
    simp only [rest, List.length_drop, List.length_cons] at hlen
    omega
  have hbyte : s.data[s.pos] = b := by
    have hdrop := List.drop_eq_getElem_cons hlt
    rw [← show s.rest = s.data.drop s.pos from rfl, h] at hdrop
    exact (List.cons.inj hdrop).1.symm
  rw [get, dif_pos hlt, hbyte]

/-- At the end `get` leaves the byte as it is. -/
theorem get_end {s : Datastream} (h : s.rest = []) (c : Byte) : s.get c = (false, c, s.skip 1) := by
  have hle : s.data.length ≤ s.pos := List.drop_eq_nil_iff.mp h
  rw [get, dif_neg (Nat.not_lt.mpr hle)]

/-- As an `int32_t` a size is no larger. -/
theorem to_int32_le (n : UInt32) : n.toInt32.toInt ≤ (n.toNat : Int) := by
  show n.toBitVec.toInt ≤ (n.toBitVec.toNat : Int)
  rw [BitVec.toInt_eq_toNat_cond]
  split <;> omega

end Datastream

/-! ## Readers -/

variable {β γ : Type}

/-- The reader takes these bytes off any stream that starts with them and returns `v`. -/
def Reads (reader : Reader β) (bytes : Text) (v : β) : Prop :=
  ∀ s r, s.rest = bytes ++ r → reader s = .ok (v, s.skip bytes.length)

/-- A reader that takes nothing. -/
theorem Reads.pure (v : β) : Reads (Pure.pure v) [] v := fun _ _ _ => rfl

/-- A reader and then another one. -/
theorem Reads.bind {first : Reader β} {second : β → Reader γ} {a b : Text} {x : β} {y : γ}
    (hfirst : Reads first a x) (hsecond : Reads (second x) b y) :
    Reads (first >>= second) (a ++ b) y := by
  intro s r h
  rw [List.append_assoc] at h
  have hrest := Datastream.rest_skip_append h
  show (first s >>= fun p => second p.1 p.2) = _
  rw [hfirst s (b ++ r) h]
  show second x (s.skip a.length) = _
  rw [hsecond _ r hrest, Datastream.skip_skip, List.length_append]

/-- A reader whose result is converted. -/
theorem Reads.map {reader : Reader β} {a : Text} {x : β} (h : Reads reader a x) (f : β → γ) :
    Reads (reader >>= fun x => Pure.pure (f x)) a (f x) := by
  rw [← List.append_nil a]
  exact h.bind (Reads.pure (f x))

/-- `read` takes the next bytes. -/
theorem reads_read {n : UInt32} (hn : 0 < n.toNat) (d bs : List.Vector Byte n.toNat) :
    Reads (Datastream.read n d) bs.toList (true, bs) := by
  intro s r h
  have hlen : s.data.length - s.pos = n.toNat + r.length := by
    have hlen := congrArg List.length h
    simpa [Datastream.rest] using hlen
  have hguard : n.toInt32.toInt ≤ (s.data.length : Int) - s.pos := by
    have hint := Datastream.to_int32_le n
    omega
  have hbytes : (s.data.drop s.pos).take n.toNat = bs.toList := by
    show s.rest.take n.toNat = bs.toList
    rw [h, List.take_left' bs.toList_length]
  have hvector : (⟨(s.data.drop s.pos).take n.toNat, by simp; omega⟩ :
      List.Vector Byte n.toNat) = bs := List.Vector.eq _ _ hbytes
  rw [Datastream.read, if_pos hguard, dif_pos (by omega), hvector, bs.toList_length]

end BoostRpc.Raw
