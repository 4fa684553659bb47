import BoostRpc.Raw.Cursor

/-!
# The streams of the two passes

`datastream<size_t>`, which counts what is written to it, and `datastream<char*>`, which writes it
to a buffer. `Follows` says that a stream keeps up with the bytes that it is given up to a limit.
-/

namespace BoostRpc.Raw

/-- `datastream<size_t>` -/
structure SizeStream where
  size : UInt32
  deriving DecidableEq

instance : OutStream SizeStream where
  put s _ := ⟨s.size + 1⟩
  write s d := ⟨s.size + UInt32.ofNat d.length⟩

/-- `datastream<char*>`, until `memcpy` touches memory outside of the buffer. -/
abbrev BufferStream : Type := Except Fault Datastream

/-- A size as a `uint32_t` is not larger. -/
theorem to_nat_of_nat_le (n : Nat) : (UInt32.ofNat n).toNat ≤ n := by
  rw [UInt32.toNat_ofNat']
  exact Nat.mod_le n _

/-- A text has the bytes that its size as a `uint32_t` counts. -/
theorem length_take_of_nat (d : Text) :
    (d.take (UInt32.ofNat d.length).toNat).length = (UInt32.ofNat d.length).toNat := by
  rw [List.length_take]
  exact Nat.min_eq_left (to_nat_of_nat_le d.length)

instance : OutStream BufferStream where
  put s c := s.map fun s => (s.put c).2
  write s d := do
    let s ← s
    let n := UInt32.ofNat d.length
    let (_, s) ← s.write n ⟨d.take n.toNat, length_take_of_nat d⟩
    return s

/-- As long as no more than `limit` bytes are written, `R s bytes` holds where it held before and
`bytes` have been written to `s` since. -/
structure Follows {σ : Type} [OutStream σ] (limit : Nat) (R : σ → Text → Prop) : Prop where
  put : ∀ s bytes c, R s bytes → bytes.length + 1 ≤ limit → R (OutStream.put s c) (bytes ++ [c])
  write : ∀ s bytes d, R s bytes → bytes.length + d.length ≤ limit →
    R (OutStream.write s d) (bytes ++ d)

/-- Putting bytes one after the other. -/
theorem Follows.putAll {σ : Type} [OutStream σ] {limit : Nat} {R : σ → Text → Prop}
    (h : Follows limit R) {s : σ} {bytes : Text} (hs : R s bytes) (cs : Text)
    (hlimit : bytes.length + cs.length ≤ limit) : R (cs.foldl OutStream.put s) (bytes ++ cs) := by
  induction cs generalizing s bytes with
  | nil =>
      rw [List.append_nil]
      exact hs
  | cons c cs ih =>
      rw [List.length_cons] at hlimit
      have hput := h.put s bytes c hs (by omega)
      rw [List.foldl_cons, List.append_cons]
      refine ih hput ?_
      rw [List.length_append, List.length_singleton]
      omega

/-- The size stream holds the number of bytes. -/
def Counts (s : SizeStream) (bytes : Text) : Prop := s.size = UInt32.ofNat bytes.length

theorem counts_nil : Counts ⟨0⟩ [] := rfl

/-- The size stream counts any bytes. -/
theorem size_follows (limit : Nat) : Follows limit Counts := by
  refine ⟨fun s bytes c hs _ => ?_, fun s bytes d hs _ => ?_⟩ <;> unfold Counts at hs ⊢
  · show s.size + 1 = _
    rw [hs, List.length_append, List.length_singleton, UInt32.ofNat_add]
    rfl
  · show s.size + UInt32.ofNat d.length = _
    rw [hs, List.length_append, UInt32.ofNat_add]

/-- A buffer that holds some bytes, and behind them what it held before. -/
def Holds (buffer : Text) (s : BufferStream) (bytes : Text) : Prop :=
  bytes.length ≤ buffer.length ∧ s = .ok ⟨bytes ++ buffer.drop bytes.length, bytes.length⟩

/-- The buffer holds the bytes, as many as it has room for. -/
theorem buffer_follows {buffer : Text} (h : buffer.length < 2 ^ 32) :
    Follows buffer.length (Holds buffer) := by
  refine ⟨fun s bytes c hs hlimit => ?_, fun s bytes d hs hlimit => ?_⟩
  · obtain ⟨-, rfl⟩ := hs
    have hlt : bytes.length < (bytes ++ buffer.drop bytes.length).length := by
      rw [List.length_append, List.length_drop]
      omega
    refine ⟨by rw [List.length_append, List.length_singleton]; exact hlimit, ?_⟩
    show Except.ok (Datastream.put c ⟨bytes ++ buffer.drop bytes.length, bytes.length⟩).2 = _
    rw [Datastream.put, if_pos hlt, List.set_append_right _ _ (Nat.le_refl _), Nat.sub_self,
      List.drop_eq_getElem_cons (show bytes.length < buffer.length by omega), List.set_cons_zero,
      List.length_append, List.length_singleton, List.append_assoc, List.singleton_append]
  · obtain ⟨-, rfl⟩ := hs
    have hsize : (UInt32.ofNat d.length).toNat = d.length :=
      UInt32.toNat_ofNat_of_lt' (Nat.lt_of_le_of_lt (by omega) h)
    have htest : (UInt32.ofNat d.length).toInt32.toInt ≤
        ((bytes ++ buffer.drop bytes.length).length : Int) - bytes.length := by
      have hint := Datastream.to_int32_le (UInt32.ofNat d.length)
      rw [hsize] at hint
      rw [List.length_append, List.length_drop]
      omega
    have hroom : bytes.length + (UInt32.ofNat d.length).toNat ≤
        (bytes ++ buffer.drop bytes.length).length := by
      rw [hsize, List.length_append, List.length_drop]
      omega
    refine ⟨by rw [List.length_append]; exact hlimit, ?_⟩
    simp only [OutStream.write, bind, Except.bind, Datastream.write, if_pos htest, if_pos hroom,
      List.Vector.toList]
    simp only [pure, Except.pure, hsize, List.take_length, List.take_left', List.length_append,
      List.drop_append, List.drop_drop, Nat.add_sub_cancel_left]
    rw [List.drop_eq_nil_of_le (Nat.le_add_right _ _), List.nil_append]

end BoostRpc.Raw
