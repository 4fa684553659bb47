import BoostRpc.Raw.Format
import BoostRpc.Raw.Streams

/-!
# The two passes of `pack_vec`

`pack_vec` packs a value to a stream that counts, makes room for so many bytes and packs the value
again to a stream over them. Neither pass looks at what `put` and `write` return; `CheckedStream`
does. `pack_appends` says that any stream that keeps up with what it is given receives the bytes
that a stream without bounds receives, and `two_passes` instantiates it for each pass.
-/

namespace BoostRpc.Raw

open Base128

variable {k : Kind} {α : Type}

/-- `raw::pack_vec` into a vector that holds `s`, unless it looks into an unset `required`. -/
def packVec (t : Layout .single α) (s : Text) (v : α) : Option (Except Fault Text) := do
  let ps ← pack .pack t (⟨0⟩ : SizeStream) v
  let s := resize ps.size.toNat 0 s
  if s.length = 0 then return .ok s
  else
    let ds ← pack .pack t (Except.ok (Datastream.new s) : BufferStream) v
    return ds.map Datastream.data

/-- The `required`s that `pack` looks into are set. -/
def AllSet : {k : Kind} → {α : Type} → Layout k α → α → Prop
  | _, _, .container t, v => ∀ x ∈ v, AllSet t x
  | _, _, .set _ t, v => ∀ x ∈ v.items, AllSet t x
  | _, _, .map _ k t, v => ∀ x ∈ v.items, AllSet k x.1 ∧ AllSet t x.2
  | _, _, .optional t, v => ∀ x ∈ v, AllSet t x
  | _, _, .required t, v => ∃ x, v = some x ∧ AllSet t x
  | _, _, .sequence ts, v => AllSet ts v
  | _, _, .struct ts members, v => AllSet ts (members v)
  | _, _, .cons t ts, (x, xs) => AllSet t x ∧ AllSet ts xs
  | _, _, .bool, _ => True
  | _, _, .pod _, _ => True
  | _, _, .unsignedInt, _ => True
  | _, _, .signedInt, _ => True
  | _, _, .string, _ => True
  | _, _, .chars, _ => True
  | _, _, .nil, _ => True

/-! ## A stream whose results are looked at -/

/-- Whether `put` of a byte succeeds. -/
def BufferStream.puts (s : BufferStream) (c : Byte) : Bool :=
  match s with
  | .ok s => (s.put c).1
  | .error _ => false

/-- Whether `write` of some bytes succeeds. -/
def BufferStream.writes (s : BufferStream) (d : Text) : Bool :=
  let n := UInt32.ofNat d.length
  match s with
  | .ok s =>
      match s.write n ⟨d.take n.toNat, length_take_of_nat d⟩ with
      | .ok (succeeded, _) => succeeded
      | .error _ => false
  | .error _ => false

/-- A `datastream<char*>` and whether every `put` and `write` has returned `true`. -/
structure CheckedStream where
  stream : BufferStream
  succeeded : Bool

instance : OutStream CheckedStream where
  put s c := ⟨OutStream.put s.stream c, s.succeeded && s.stream.puts c⟩
  write s d := ⟨OutStream.write s.stream d, s.succeeded && s.stream.writes d⟩

/-- The stream over a buffer, before the first call. -/
def CheckedStream.new (buffer : Text) : CheckedStream := ⟨.ok (.new buffer), true⟩

/-- The buffer holds the bytes and all calls have succeeded. -/
def Succeeds (buffer : Text) (s : CheckedStream) (bytes : Text) : Prop :=
  Holds buffer s.stream bytes ∧ s.succeeded = true

theorem succeeds_nil (buffer : Text) : Succeeds buffer (.new buffer) [] :=
  ⟨⟨Nat.zero_le _, rfl⟩, rfl⟩

/-- As long as the buffer has room for the bytes, every call succeeds. -/
theorem checked_follows {buffer : Text} (h : buffer.length < 2 ^ 32) :
    Follows buffer.length (Succeeds buffer) := by
  have hbuffer := buffer_follows h
  refine ⟨fun s bytes c hs hlimit => ?_, fun s bytes d hs hlimit => ?_⟩
  · refine ⟨hbuffer.put s.stream bytes c hs.1 hlimit, ?_⟩
    obtain ⟨⟨hle, hstream⟩, hsucceeded⟩ := hs
    show (s.succeeded && s.stream.puts c) = true
    rw [hsucceeded, Bool.true_and, hstream]
    apply (put_succeeds _ c).mpr
    simp only [Datastream.left, List.length_append, List.length_drop]
    omega
  · refine ⟨hbuffer.write s.stream bytes d hs.1 hlimit, ?_⟩
    obtain ⟨⟨hle, hstream⟩, hsucceeded⟩ := hs
    show (s.succeeded && s.stream.writes d) = true
    have hsize : (UInt32.ofNat d.length).toNat = d.length :=
      UInt32.toNat_ofNat_of_lt' (Nat.lt_of_le_of_lt (by omega) h)
    have hroom : ((UInt32.ofNat d.length).toNat : Int) ≤
        Datastream.left ⟨bytes ++ buffer.drop bytes.length, bytes.length⟩ := by
      rw [hsize]
      simp only [Datastream.left, List.length_append, List.length_drop]
      omega
    rw [hsucceeded, Bool.true_and, hstream, BufferStream.writes]
    obtain ⟨s', hwrite⟩ :=
      write_granted ⟨d.take (UInt32.ofNat d.length).toNat, length_take_of_nat d⟩ hroom
    rw [hwrite]

/-! ## What a stream receives -/

section

variable {σ : Type} [OutStream σ] {limit : Nat} {R : σ → Text → Prop}

/-- A stream that keeps up with what it is given receives these bytes, where they stay within the
limit. -/
def Appends (limit : Nat) (R : σ → Text → Prop) (writer : σ → Option σ) (a : Text) : Prop :=
  ∀ s bytes, R s bytes → bytes.length + a.length ≤ limit →
    ∃ s', writer s = some s' ∧ R s' (bytes ++ a)

omit [OutStream σ] in
/-- A writer that writes nothing. -/
theorem Appends.nothing : Appends limit R some [] := fun s bytes hs _ =>
  ⟨s, rfl, by rwa [List.append_nil]⟩

omit [OutStream σ] in
/-- A writer and then another one. -/
theorem Appends.bind {first second : σ → Option σ} {a b : Text} (hfirst : Appends limit R first a)
    (hsecond : Appends limit R second b) :
    Appends limit R (fun s => (first s).bind second) (a ++ b) := by
  intro s bytes hs hlimit
  rw [List.length_append] at hlimit
  obtain ⟨s₁, h₁, hs₁⟩ := hfirst s bytes hs (by omega)
  obtain ⟨s₂, h₂, hs₂⟩ := hsecond s₁ (bytes ++ a) hs₁ (by rw [List.length_append]; omega)
  refine ⟨s₂, ?_, by rwa [← List.append_assoc]⟩
  show (first s).bind second = some s₂
  rw [h₁]
  exact h₂

omit [OutStream σ] in
/-- Items one after the other. -/
theorem Appends.items {β : Type} {writer : σ → β → Option σ} {f : β → Option Text} {xs : List β}
    (h : ∀ x ∈ xs, ∀ a, f x = some a → Appends limit R (fun s => writer s x) a) {b : Text}
    (hb : packedAll f xs = some b) : Appends limit R (fun s => xs.foldlM writer s) b := by
  induction xs generalizing b with
  | nil =>
      cases hb
      exact .nothing
  | cons x xs ih =>
      obtain ⟨a, b, ha, hrest, rfl⟩ := packed_all_cons.mp hb
      have hitem := h x List.mem_cons_self a ha
      have hitems := ih (fun y hy => h y (List.mem_cons_of_mem x hy)) hrest
      simp only [List.foldlM_cons]
      exact hitem.bind hitems

/-- An integer is put group by group. -/
theorem Follows.groups (h : Follows limit R) (n : Nat) :
    Appends limit R (fun s => some (putGroups s n)) (code n) := by
  intro s bytes hs hlimit
  refine ⟨putGroups s n, rfl, ?_⟩
  rw [put_groups_eq_foldl]
  exact h.putAll hs (code n) hlimit

/-- What is written at once. -/
theorem Follows.bytes (h : Follows limit R) (d : Text) :
    Appends limit R (fun s => some (OutStream.write s d)) d :=
  fun s bytes hs hlimit => ⟨_, rfl, h.write s bytes d hs hlimit⟩

/-- A string or a vector of characters behind its size. -/
theorem Follows.chars (h : Follows limit R) (v : Text) :
    Appends limit R (fun s => some (packChars s v)) (code (UInt32.ofNat v.length).toNat ++ v) := by
  have hsize := h.groups (UInt32.ofNat v.length).toNat
  cases v with
  | nil => exact hsize.bind .nothing
  | cons b v => exact hsize.bind (h.bytes (b :: v))

/-- Items behind their number. -/
theorem Follows.container (h : Follows limit R) {β : Type} {writer : σ → β → Option σ}
    {f : β → Option Text} {xs : List β}
    (hitem : ∀ x ∈ xs, ∀ a, f x = some a → Appends limit R (fun s => writer s x) a) {b : Text}
    (hb : packedAll f xs = some b) :
    Appends limit R
      (fun s => xs.foldlM writer (packUnsigned s (UInt32.ofNat xs.length)))
      (code (UInt32.ofNat xs.length).toNat ++ b) :=
  (h.groups (UInt32.ofNat xs.length).toNat).bind (.items hitem hb)

/-- `pack` gives any stream the bytes that it gives a stream without bounds. -/
theorem pack_appends (h : Follows limit R) {c : Caller} (t : Layout k α) {v : α} {bytes : Text}
    (hpack : packed c t v = some bytes) : Appends limit R (fun s => pack c t s v) bytes := by
  induction t generalizing c bytes with
  | bool =>
      cases hpack
      exact h.bytes _
  | pod scalar =>
      cases hpack
      exact h.bytes _
  | unsignedInt =>
      rw [packed_unsigned] at hpack
      cases hpack
      exact h.groups _
  | signedInt =>
      rw [packed_signed] at hpack
      cases hpack
      exact h.groups _
  | string =>
      rw [packed_string] at hpack
      cases hpack
      exact h.chars v
  | chars =>
      rw [packed_chars] at hpack
      cases hpack
      exact h.chars v
  | container t ih =>
      rw [packed_container] at hpack
      obtain ⟨b, hb, rfl⟩ := Option.map_eq_some_iff.mp hpack
      exact h.container (fun x _ a ha => ih ha) hb
  | set cmp t ih =>
      rw [packed_set, packed_container] at hpack
      obtain ⟨b, hb, rfl⟩ := Option.map_eq_some_iff.mp hpack
      exact h.container (fun x _ a ha => ih ha) hb
  | map cmp k t ihk iht =>
      rw [packed_map] at hpack
      obtain ⟨b, hb, rfl⟩ := Option.map_eq_some_iff.mp hpack
      refine h.container (fun x _ a ha => ?_) hb
      obtain ⟨a₁, a₂, h₁, h₂, rfl⟩ := packed_pair_eq_some.mp ha
      exact (ihk h₁).bind (iht h₂)
  | optional t ih =>
      cases c with
      | packHelper =>
          cases v with
          | none =>
              cases hpack
              exact .nothing
          | some x => exact ih hpack
      | pack =>
          cases v with
          | none =>
              cases hpack
              exact h.bytes [0]
          | some x =>
              rw [packed_some] at hpack
              obtain ⟨b, hb, rfl⟩ := Option.map_eq_some_iff.mp hpack
              exact (h.bytes [1]).bind (ih hb)
  | required t ih =>
      cases v with
      | none => cases hpack
      | some x => exact ih hpack
  | sequence ts ih => exact ih hpack
  | struct ts members ih => exact ih hpack
  | nil =>
      cases hpack
      exact .nothing
  | cons t ts iht ihts =>
      rw [packed_cons] at hpack
      obtain ⟨a, b, ha, hb, rfl⟩ := packed_pair_eq_some.mp hpack
      exact (iht ha).bind (ihts hb)

/-- A fresh stream receives just the encoding. -/
theorem pack_receives (h : Follows limit R) {c : Caller} (t : Layout k α) {v : α} {bytes : Text}
    (hpack : packed c t v = some bytes) {s : σ} (hs : R s []) (hlen : bytes.length ≤ limit) :
    ∃ s', pack c t s v = some s' ∧ R s' bytes :=
  pack_appends h t hpack s [] hs (by rwa [List.length_nil, Nat.zero_add])

end

/-! ## Values with set required fields -/

section

variable {σ : Type} [OutStream σ]

omit [OutStream σ] in
/-- A loop that fails at an item where `P` does not hold, whatever was put before. -/
theorem fold_some_iff {β : Type} {writer : σ → β → Option σ} {P : β → Prop} {xs : List β}
    (h : ∀ x ∈ xs, ∀ s, (∃ s', writer s x = some s') ↔ P x) (s : σ) :
    (∃ s', xs.foldlM writer s = some s') ↔ ∀ x ∈ xs, P x := by
  induction xs generalizing s with
  | nil => exact iff_of_true ⟨s, rfl⟩ fun x hx => absurd hx List.not_mem_nil
  | cons x xs ih =>
      have hrest := ih fun y hy => h y (List.mem_cons_of_mem x hy)
      rw [List.foldlM_cons, List.forall_mem_cons, ← h x List.mem_cons_self s]
      constructor
      · rintro ⟨s', hs'⟩
        obtain ⟨s₁, h₁, hs'⟩ := Option.bind_eq_some_iff.mp hs'
        exact ⟨⟨s₁, h₁⟩, (hrest s₁).mp ⟨s', hs'⟩⟩
      · rintro ⟨⟨s₁, h₁⟩, hall⟩
        obtain ⟨s', hs'⟩ := (hrest s₁).mpr hall
        exact ⟨s', by rw [h₁]; exact hs'⟩

omit [OutStream σ] in
theorem bind_some_iff {f g : σ → Option σ} {P Q : Prop} {s : σ}
    (hf : (∃ s', f s = some s') ↔ P) (hg : ∀ s, (∃ s', g s = some s') ↔ Q) :
    (∃ s', (f s).bind g = some s') ↔ P ∧ Q := by
  rw [← hf]
  constructor
  · rintro ⟨s', hs'⟩
    obtain ⟨s₁, h₁, hs'⟩ := Option.bind_eq_some_iff.mp hs'
    exact ⟨⟨s₁, h₁⟩, (hg s₁).mp ⟨s', hs'⟩⟩
  · rintro ⟨⟨s₁, h₁⟩, hQ⟩
    obtain ⟨s', hs'⟩ := (hg s₁).mpr hQ
    exact ⟨s', by rw [h₁]; exact hs'⟩

/-- `pack` looks into no unset `required`, whatever the stream, if and only if all are set. -/
theorem pack_some_iff (c : Caller) (t : Layout k α) (s : σ) (v : α) :
    (∃ s', pack c t s v = some s') ↔ AllSet t v := by
  induction t generalizing c s with
  | container t ih => exact fold_some_iff (fun x _ s => ih .pack s x) _
  | set cmp t ih => exact fold_some_iff (fun x _ s => ih .pack s x) _
  | map cmp k t ihk iht =>
      refine fold_some_iff (fun x _ s => ?_) _
      exact bind_some_iff (f := fun s => pack .pack k s x.1) (ihk .pack s x.1)
        fun s => iht .pack s x.2
  | optional t ih =>
      cases v with
      | none => exact iff_of_true (by cases c <;> exact ⟨_, rfl⟩) fun x hx => by cases hx
      | some x =>
          refine Iff.trans ?_ ⟨fun h y hy => Option.some.inj hy ▸ h, fun h => h x rfl⟩
          cases c with
          | packHelper => exact ih .pack s x
          | pack => exact ih .pack _ x
  | required t ih =>
      cases v with
      | none => exact iff_of_false (fun ⟨_, h⟩ => by cases h) fun ⟨_, h, _⟩ => by cases h
      | some x =>
          refine (ih .pack s x).trans ⟨fun h => ⟨x, rfl, h⟩, ?_⟩
          rintro ⟨_, ⟨rfl⟩, h⟩
          exact h
  | sequence ts ih => exact ih .pack s v
  | struct ts members ih => exact ih .packHelper s (members v)
  | cons t ts iht ihts =>
      exact bind_some_iff (f := fun s => pack c t s v.1) (iht c s v.1) fun s => ihts c s v.2
  | _ => exact iff_of_true ⟨_, rfl⟩ trivial

end

/-! ## The two passes -/

/-- A value with set required fields has an encoding, which a stream without bounds receives. Where
it is shorter than 2^32 bytes, the size pass counts its bytes, every call of the second pass over a
buffer of this size succeeds and fills it with them, and `pack_vec` makes any vector one of them. -/
theorem two_passes (t : Layout .single α) (v : α) (hset : AllSet t v) :
    ∃ bytes, pack .pack t ([] : Text) v = some bytes ∧
      (bytes.length < 2 ^ 32 →
        (∃ ps, pack .pack t (⟨0⟩ : SizeStream) v = some ps ∧ ps.size.toNat = bytes.length) ∧
        (∀ buffer, buffer.length = bytes.length →
          pack .pack t (CheckedStream.new buffer) v =
            some ⟨.ok ⟨bytes, bytes.length⟩, true⟩) ∧
        ∀ s, packVec t s v = some (.ok bytes)) := by
  obtain ⟨bytes, hpack⟩ := (pack_some_iff .pack t ([] : Text) v).mpr hset
  refine ⟨bytes, hpack, ?_⟩
  intro hlen
  obtain ⟨ps, hps, hcount⟩ := pack_receives (size_follows bytes.length) t hpack counts_nil
    (Nat.le_refl _)
  have hsize : ps.size.toNat = bytes.length := by
    rw [show ps.size = UInt32.ofNat bytes.length from hcount]
    exact UInt32.toNat_ofNat_of_lt' hlen
  have hfilled : ∀ buffer : Text, buffer.length = bytes.length →
      bytes ++ buffer.drop bytes.length = bytes := by
    intro buffer hbuffer
    rw [List.drop_eq_nil_of_le (Nat.le_of_eq hbuffer), List.append_nil]
  refine ⟨⟨ps, hps, hsize⟩, ?_, ?_⟩
  · intro buffer hbuffer
    have hfollows := checked_follows (hbuffer.symm ▸ hlen : buffer.length < 2 ^ 32)
    obtain ⟨⟨stream, succeeded⟩, hds, ⟨-, hstream⟩, hsucceeded⟩ :=
      pack_receives hfollows t hpack (succeeds_nil buffer) (Nat.le_of_eq hbuffer.symm)
    rw [hfilled buffer hbuffer] at hstream
    rw [hds, show stream = _ from hstream, show succeeded = true from hsucceeded]
  · intro s
    have hresize : (resize ps.size.toNat 0 s).length = bytes.length := by
      rw [length_resize, hsize]
    have hfollows := buffer_follows
      (hresize.symm ▸ hlen : (resize ps.size.toNat 0 s).length < 2 ^ 32)
    have hnew : Holds (resize ps.size.toNat 0 s) (.ok (.new (resize ps.size.toNat 0 s))) [] :=
      ⟨Nat.zero_le _, rfl⟩
    obtain ⟨ds, hds, -, hstream⟩ := pack_receives hfollows t hpack hnew (Nat.le_of_eq hresize.symm)
    rw [hfilled _ hresize] at hstream
    simp only [packVec, hps, Option.bind_eq_bind, Option.bind_some, hresize]
    by_cases hempty : bytes.length = 0
    · have hs : resize ps.size.toNat 0 s = [] :=
        List.length_eq_zero_iff.mp (by rw [hresize, hempty])
      rw [if_pos hempty, hs, List.length_eq_zero_iff.mp hempty]
      rfl
    · rw [if_neg hempty, hds, hstream]
      rfl

/-- A struct of a `signed_int`, an optional member that is not set and a required string. -/
theorem two_passes_struct :
    let t : Layout .single (Int32 × Option Bool × Option Text × Unit) :=
      .struct (.cons .signedInt (.cons (.optional .bool) (.cons (.required .string) .nil)))
        (Equiv.refl _)
    packVec t [9, 9, 9, 9] (-2, none, some [104], ()) = some (.ok [3, 1, 104]) := by
  intro t
  have hset : AllSet t (-2, none, some [104], ()) := by simp [t, AllSet]
  have hzigzag : ((-2 : Int32) <<< 1).toUInt32.toNat ^^^ ((-2 : Int32) >>> 31).toUInt32.toNat = 3 :=
    rfl
  have hbytes : pack .pack t ([] : Text) (-2, none, some [104], ()) = some [3, 1, 104] := by
    simp [t, pack, packSigned, put_groups_text, hzigzag, pack_chars_text, code_small]
  obtain ⟨bytes, hpack, hpasses⟩ := two_passes t (-2, none, some [104], ()) hset
  cases hbytes.symm.trans hpack
  exact (hpasses (by decide)).2.2 [9, 9, 9, 9]

end BoostRpc.Raw
