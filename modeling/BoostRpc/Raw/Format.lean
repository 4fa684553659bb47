import BoostRpc.Raw.Codec

/-!
# What the packer writes

`pack` adds to the end of a stream without bounds, so that `packed`, the bytes it writes to an
empty one, determines it: `pack_text`. The lemmas below say for each layout what these bytes are.
-/

namespace BoostRpc.Raw

open Ordered Base128

variable {k : Kind} {α : Type}

/-- The bytes that `pack` writes. -/
def packed (c : Caller) (t : Layout k α) (v : α) : Option Text := pack c t ([] : Text) v

/-- The bytes of some items in a row. -/
def packedAll {β : Type} (f : β → Option Text) : List β → Option Text
  | [] => some []
  | x :: xs => (f x).bind (fun a => (packedAll f xs).map (a ++ ·))

/-- The bytes of two values in a row. -/
def packedPair {κ ν : Type} (f : κ → Option Text) (g : ν → Option Text) (x : κ × ν) :
    Option Text :=
  (f x.1).bind (fun a => (g x.2).map (a ++ ·))

theorem packed_all_cons {β : Type} {f : β → Option Text} {x : β} {xs : List β} {bytes : Text} :
    packedAll f (x :: xs) = some bytes ↔
      ∃ a b, f x = some a ∧ packedAll f xs = some b ∧ a ++ b = bytes := by
  simp [packedAll, Option.bind_eq_some_iff, Option.map_eq_some_iff]

theorem packed_pair_eq_some {κ ν : Type} {f : κ → Option Text} {g : ν → Option Text} {x : κ × ν}
    {bytes : Text} :
    packedPair f g x = some bytes ↔
      ∃ a b, f x.1 = some a ∧ g x.2 = some b ∧ a ++ b = bytes := by
  simp [packedPair, Option.bind_eq_some_iff, Option.map_eq_some_iff]

theorem packed_pair {κ ν : Type} {f : κ → Option Text} {g : ν → Option Text} {x : κ} {y : ν}
    {a b : Text} (hx : f x = some a) (hy : g y = some b) : packedPair f g (x, y) = some (a ++ b) :=
  packed_pair_eq_some.mpr ⟨a, b, hx, hy, rfl⟩

/-- Items that have an encoding each have one in a row. -/
theorem packed_all_some {β : Type} {f : β → Option Text} {xs : List β}
    (h : ∀ x ∈ xs, ∃ a, f x = some a) : ∃ bytes, packedAll f xs = some bytes := by
  induction xs with
  | nil => exact ⟨[], rfl⟩
  | cons x xs ih =>
      obtain ⟨a, ha⟩ := h x List.mem_cons_self
      obtain ⟨b, hb⟩ := ih (fun y hy => h y (List.mem_cons_of_mem x hy))
      exact ⟨a ++ b, packed_all_cons.mpr ⟨a, b, ha, hb, rfl⟩⟩

/-- The bytes of an item are among those of the row. -/
theorem packed_item {β : Type} {f : β → Option Text} {xs : List β} {bytes : Text}
    (h : packedAll f xs = some bytes) {x : β} (hx : x ∈ xs) :
    ∃ a, f x = some a ∧ a.length ≤ bytes.length := by
  induction xs generalizing bytes with
  | nil => cases hx
  | cons y ys ih =>
      obtain ⟨a, b, ha, hb, rfl⟩ := packed_all_cons.mp h
      rw [List.length_append]
      cases List.mem_cons.mp hx with
      | inl hxy => exact ⟨a, hxy ▸ ha, Nat.le_add_right _ _⟩
      | inr hys =>
          obtain ⟨a', ha', hle⟩ := ih hb hys
          exact ⟨a', ha', Nat.le_trans hle (Nat.le_add_left _ _)⟩

/-- Items that take at least one byte each are no more than their bytes. -/
theorem length_le_packed {β : Type} {f : β → Option Text}
    (hf : ∀ x bytes, f x = some bytes → 0 < bytes.length) {xs : List β} {bytes : Text}
    (h : packedAll f xs = some bytes) : xs.length ≤ bytes.length := by
  induction xs generalizing bytes with
  | nil => exact Nat.zero_le _
  | cons x xs ih =>
      obtain ⟨a, b, ha, hb, rfl⟩ := packed_all_cons.mp h
      have hpos := hf x a ha
      have hle := ih hb
      rw [List.length_cons, List.length_append]
      omega

theorem pack_chars_text (s v : Text) :
    packChars s v = s ++ (code (UInt32.ofNat v.length).toNat ++ v) := by
  cases v with
  | nil => simp [packChars, pack_unsigned_text]
  | cons b v => simp [packChars, pack_unsigned_text]

/-- Packing items one after the other. -/
theorem foldl_text {β : Type} {step : Text → β → Option Text} {f : β → Option Text} {xs : List β}
    (h : ∀ x ∈ xs, ∀ s, step s x = (f x).map (s ++ ·)) (s : Text) :
    xs.foldlM step s = (packedAll f xs).map (s ++ ·) := by
  induction xs generalizing s with
  | nil => simp [packedAll]
  | cons x xs ih =>
      have htail := ih (fun y hy => h y (List.mem_cons_of_mem _ hy))
      rw [List.foldlM_cons, h x List.mem_cons_self]
      cases hx : f x with
      | none => simp [packedAll, hx]
      | some a =>
          show xs.foldlM step (s ++ a) = _
          rw [htail (s ++ a)]
          cases hxs : packedAll f xs <;> simp [packedAll, hx, hxs]

/-- Packing two values one after the other. -/
theorem pair_text {κ ν : Type} {first : Text → κ → Option Text} {second : Text → ν → Option Text}
    {f : κ → Option Text} {g : ν → Option Text} (hf : ∀ s x, first s x = (f x).map (s ++ ·))
    (hg : ∀ s y, second s y = (g y).map (s ++ ·)) (s : Text) (x : κ × ν) :
    (first s x.1).bind (fun s => second s x.2) = (packedPair f g x).map (s ++ ·) := by
  rw [hf, packedPair]
  cases f x.1 with
  | none => rfl
  | some a =>
      show second (s ++ a) x.2 = ((g x.2).map (a ++ ·)).map (s ++ ·)
      rw [hg]
      simp [Function.comp_def]

/-- `pack` appends to what has been written. -/
theorem pack_text (c : Caller) (t : Layout k α) (s : Text) (v : α) :
    pack c t s v = (packed c t v).map (s ++ ·) := by
  unfold packed
  induction t generalizing c s with
  | bool => simp [pack, packBool]
  | pod scalar => simp [pack]
  | unsignedInt => simp [pack, pack_unsigned_text]
  | signedInt => simp [pack, packSigned, put_groups_text]
  | string => simp [pack, pack_chars_text]
  | chars => simp [pack, pack_chars_text]
  | container t ih =>
      simp only [pack]
      rw [foldl_text (fun x _ s => ih .pack s x), foldl_text (fun x _ s => ih .pack s x)]
      simp [pack_unsigned_text, Function.comp_def]
  | set cmp t ih =>
      simp only [pack]
      rw [foldl_text (fun x _ s => ih .pack s x), foldl_text (fun x _ s => ih .pack s x)]
      simp [pack_unsigned_text, Function.comp_def]
  | map cmp k t ihk iht =>
      have hpair := pair_text (fun s x => ihk .pack s x) (fun s x => iht .pack s x)
      simp only [pack]
      rw [foldl_text (fun x _ s => hpair s x), foldl_text (fun x _ s => hpair s x)]
      simp [pack_unsigned_text, Function.comp_def]
  | optional t ih =>
      cases c with
      | packHelper =>
          cases v with
          | none => simp [pack]
          | some x => exact ih .pack s x
      | pack =>
          cases v with
          | none => simp [pack, packBool]
          | some x =>
              show pack .pack t (packBool s true) x = (pack .pack t (packBool [] true) x).map _
              rw [ih .pack (packBool s true) x, ih .pack (packBool [] true) x]
              simp [packBool, Function.comp_def]
  | required t ih =>
      cases v with
      | none => rfl
      | some x => exact ih .pack s x
  | sequence ts ih => exact ih .pack s v
  | struct ts members ih => exact ih .packHelper s (members v)
  | nil => simp [pack]
  | cons t ts iht ihts =>
      have hpair := pair_text (fun s x => iht c s x) (fun s x => ihts c s x)
      simp only [pack]
      rw [hpair, hpair]
      simp

/-! ## Layout by layout -/

section

variable {c : Caller} {β κ ν S : Type}

theorem packed_pod (scalar : Scalar α) (v : α) :
    packed c (.pod scalar) v = some (scalar.repr v).toList := rfl

theorem packed_unsigned (v : UInt32) : packed c .unsignedInt v = some (code v.toNat) :=
  congrArg some (put_groups_text [] v.toNat)

theorem packed_signed (v : Int32) :
    packed c .signedInt v = some (code ((v <<< 1) ^^^ (v >>> 31)).toUInt32.toNat) :=
  congrArg some (put_groups_text [] _)

theorem packed_string (v : Text) :
    packed c .string v = some (code (UInt32.ofNat v.length).toNat ++ v) :=
  congrArg some (pack_chars_text [] v)

theorem packed_chars (v : Text) :
    packed c .chars v = some (code (UInt32.ofNat v.length).toNat ++ v) :=
  congrArg some (pack_chars_text [] v)

theorem packed_container (t : Layout .single α) (v : List α) :
    packed c (.container t) v = (packedAll (packed .pack t) v).map
      (code (UInt32.ofNat v.length).toNat ++ ·) := by
  show v.foldlM (fun s x => pack .pack t s x) (packUnsigned [] (UInt32.ofNat v.length)) = _
  rw [foldl_text (fun x _ s => pack_text .pack t s x), pack_unsigned_text, List.nil_append]

theorem packed_set (cmp : Compare α) (t : Layout .single α) (v : OrderedSet cmp) :
    packed c (.set cmp t) v = packed c (.container t) v.items := rfl

theorem packed_map (cmp : Compare κ) (k : Layout .single κ) (t : Layout .single ν)
    (v : OrderedMap cmp ν) :
    packed c (.map cmp k t) v =
      (packedAll (packedPair (packed .pack k) (packed .pack t)) v.items).map
        (code (UInt32.ofNat v.items.length).toNat ++ ·) := by
  have hpair := pair_text (fun s x => pack_text .pack k s x) (fun s x => pack_text .pack t s x)
  show v.items.foldlM (fun s x => (pack .pack k s x.1).bind (fun s => pack .pack t s x.2))
    (packUnsigned [] (UInt32.ofNat v.items.length)) = _
  rw [foldl_text (fun x _ s => hpair s x), pack_unsigned_text, List.nil_append]

theorem packed_some (t : Layout .single α) (x : α) :
    packed .pack (.optional t) (some x) = (packed .pack t x).map (1 :: ·) :=
  pack_text .pack t [1] x

theorem packed_cons (t : Layout .single α) (ts : Layout .several β) (v : α × β) :
    packed c (.cons t ts) v = packedPair (packed c t) (packed c ts) v := by
  show (pack c t [] v.1).bind (fun s => pack c ts s v.2) = _
  rw [pair_text (fun s x => pack_text c t s x) (fun s x => pack_text c ts s x)]
  simp

end

end BoostRpc.Raw
