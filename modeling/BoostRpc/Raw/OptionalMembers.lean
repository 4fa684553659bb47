import BoostRpc.Raw.RoundTrip

/-!
# Optional struct members

The visitor that packs a struct writes no flag for an optional member, but the one that unpacks it
reads a flag. `loses_of_not_plain` finds in every layout that is not `plain` a small value that does
not come back: the components in front of the first offending one are zero and so are the bytes
behind it. With `unpack_packed` this makes `plain` the exact condition for the round trip of a
struct type: `struct_round_trip_iff`.
-/

namespace BoostRpc.Raw

open Ordered Base128

variable {k : Kind} {α β γ : Type}

/-! ## Readers that return something else -/

/-- On a stream with these bytes and `r` behind them the reader does not return `v`. -/
def Misreads (reader : Reader β) (bytes r : Text) (v : β) : Prop :=
  ∀ s, s.rest = bytes ++ r → ∀ s', reader s ≠ .ok (v, s')

/-- Both parts of a reader that returns have returned. -/
theorem bind_eq_ok {first : Reader β} {second : β → Reader γ} {s s' : Datastream} {y : γ}
    (h : (first >>= second) s = .ok (y, s')) :
    ∃ x s₁, first s = .ok (x, s₁) ∧ second x s₁ = .ok (y, s') := by
  change (first s >>= fun p => second p.1 p.2) = .ok (y, s') at h
  cases hfirst : first s with
  | error fault =>
      rw [hfirst] at h
      cases h
  | ok p =>
      rw [hfirst] at h
      exact ⟨p.1, p.2, rfl, h⟩

theorem Reads.misreads {reader : Reader β} {bytes : Text} {x v : β} (h : Reads reader bytes x)
    (hx : x ≠ v) (r : Text) : Misreads reader bytes r v := by
  intro s hs s' hv
  rw [h s r hs] at hv
  cases hv
  exact hx rfl

theorem Misreads.append {reader : Reader β} {a b r : Text} {v : β}
    (h : Misreads reader a (b ++ r) v) : Misreads reader (a ++ b) r v := by
  intro s hs
  rw [List.append_assoc] at hs
  exact h s hs

/-- A wrong first result spoils the whole. -/
theorem Misreads.first {first : Reader β} {second : β → Reader γ} {a r : Text} {x : β} {y : γ}
    (h : Misreads first a r x)
    (hsecond : ∀ x' s s', second x' s = .ok (y, s') → x' = x) :
    Misreads (first >>= second) a r y := by
  intro s hs s' hv
  obtain ⟨x', s₁, hfirst, hrest⟩ := bind_eq_ok hv
  have hx := hsecond x' s₁ s' hrest
  rw [hx] at hfirst
  exact h s hs s₁ hfirst

/-- So does a wrong second one. -/
theorem Misreads.second {first : Reader β} {second : β → Reader γ} {a b r : Text} {x : β} {y : γ}
    (hfirst : Reads first a x) (h : Misreads (second x) b r y) :
    Misreads (first >>= second) (a ++ b) r y := by
  intro s hs s' hv
  rw [List.append_assoc] at hs
  obtain ⟨x', s₁, hx', hrest⟩ := bind_eq_ok hv
  rw [hfirst s (b ++ r) hs] at hx'
  cases hx'
  exact h _ (Datastream.rest_skip_append hs) s' hrest

/-- A wrong result stays wrong under an injective conversion. -/
theorem Misreads.map {reader : Reader β} {a r : Text} {x : β} (h : Misreads reader a r x)
    {f : β → γ} (hf : ∀ x', f x' = f x → x' = x) :
    Misreads (reader >>= fun x => Pure.pure (f x)) a r (f x) := by
  apply h.first
  intro x' s s' hv
  exact hf x' (Prod.mk.inj (Except.ok.inj hv)).1

/-- A loop of one iteration. -/
theorem Misreads.once {body : β → Reader β} {a r : Text} {v y : β} (h : Misreads (body v) a r y) :
    Misreads (repeated body 1 v) a r y := by
  apply h.first
  intro x' s s' hv
  exact (Prod.mk.inj (Except.ok.inj hv)).1

/-! ## Zero -/

/-- A value whose encoding consists of zero bytes. -/
def zero : {k : Kind} → {α : Type} → Layout k α → α
  | _, _, .bool => false
  | _, _, .pod scalar => scalar.repr.symm (List.Vector.replicate _ 0)
  | _, _, .unsignedInt => 0
  | _, _, .signedInt => 0
  | _, _, .string => []
  | _, _, .chars => []
  | _, _, .container _ => []
  | _, _, .set _ _ => .empty
  | _, _, .map _ _ _ => .empty
  | _, _, .optional _ => none
  | _, _, .required t => some (zero t)
  | _, _, .sequence ts => zero ts
  | _, _, .struct ts members => members.symm (zero ts)
  | _, _, .nil => ()
  | _, _, .cons t ts => (zero t, zero ts)

/-- The bytes that a value needs at most whose numbers are small and whose containers have no more
than one element. -/
def footprint : {k : Kind} → {α : Type} → Layout k α → Nat
  | _, _, .bool => 1
  | _, _, .pod scalar => scalar.size.toNat
  | _, _, .unsignedInt => 1
  | _, _, .signedInt => 5
  | _, _, .string => 1
  | _, _, .chars => 1
  | _, _, .container t => 1 + footprint t
  | _, _, .set _ t => 1 + footprint t
  | _, _, .map _ k t => 1 + (footprint k + footprint t)
  | _, _, .optional t => 1 + footprint t
  | _, _, .required t => footprint t
  | _, _, .sequence ts => footprint ts
  | _, _, .struct ts _ => footprint ts
  | _, _, .nil => 0
  | _, _, .cons t ts => footprint t + footprint ts

theorem counted_zero (t : Layout k α) : Counted t (zero t) := by
  induction t with
  | string => exact Nat.two_pow_pos 32
  | chars => exact Nat.two_pow_pos 32
  | container t ih => exact ⟨Nat.two_pow_pos 32, fun x hx => absurd hx List.not_mem_nil⟩
  | set cmp t ih => exact ⟨Nat.two_pow_pos 32, fun x hx => absurd hx List.not_mem_nil⟩
  | map cmp k t ihk iht => exact ⟨Nat.two_pow_pos 32, fun x hx => absurd hx List.not_mem_nil⟩
  | optional t ih =>
      intro x hx
      cases hx
  | required t ih =>
      intro x hx
      cases hx
      exact ih
  | sequence ts ih => exact ih
  | struct ts members ih =>
      show Counted ts (members (members.symm (zero ts)))
      rw [Equiv.apply_symm_apply]
      exact ih
  | cons t ts iht ihts => exact ⟨iht, ihts⟩
  | _ => trivial

theorem zero_code : code 0 = [0] := code_small (by omega)

theorem zero_count (v : Text) : code (UInt32.ofNat 0).toNat ++ v = 0 :: v :=
  congrArg (· ++ v) zero_code

theorem zeros_append {a b : Text} (ha : ∀ x ∈ a, x = 0) (hb : ∀ x ∈ b, x = 0) :
    ∀ x ∈ a ++ b, x = 0 := by
  intro x hx
  cases List.mem_append.mp hx with
  | inl h => exact ha x h
  | inr h => exact hb x h

theorem length_both {a b : Text} {n m : Nat} (ha : a.length ≤ n) (hb : b.length ≤ m) :
    (a ++ b).length ≤ n + m := by
  rw [List.length_append]
  exact Nat.add_le_add ha hb

/-- No more bytes than the footprint, and all of them zero. -/
theorem packed_zero (c : Caller) (t : Layout k α) :
    ∃ bytes, packed c t (zero t) = some bytes ∧ bytes.length ≤ footprint t ∧
      ∀ b ∈ bytes, b = 0 := by
  have hone : ∀ n, [(0 : Byte)].length ≤ 1 + n ∧ ∀ b ∈ [(0 : Byte)], b = 0 :=
    fun n => ⟨Nat.le_add_right 1 n, by simp⟩
  induction t generalizing c with
  | bool => exact ⟨[0], rfl, hone 0⟩
  | pod scalar =>
      refine ⟨List.replicate scalar.size.toNat 0, ?_, Nat.le_of_eq List.length_replicate,
        fun b hb => List.eq_of_mem_replicate hb⟩
      rw [packed_pod, zero, Equiv.apply_symm_apply]
      rfl
  | unsignedInt => exact ⟨[0], by rw [packed_unsigned]; exact congrArg some zero_code, hone 0⟩
  | signedInt => exact ⟨[0], by rw [packed_signed]; exact congrArg some zero_code, hone 4⟩
  | string => exact ⟨[0], by rw [packed_string]; exact congrArg some (zero_count []), hone 0⟩
  | chars => exact ⟨[0], by rw [packed_chars]; exact congrArg some (zero_count []), hone 0⟩
  | container t ih =>
      exact ⟨[0], by rw [packed_container]; exact congrArg some (zero_count []), hone _⟩
  | set cmp t ih =>
      exact ⟨[0], by rw [packed_set, packed_container]; exact congrArg some (zero_count []),
        hone _⟩
  | map cmp k t ihk iht =>
      exact ⟨[0], by rw [packed_map]; exact congrArg some (zero_count []), hone _⟩
  | optional t ih =>
      cases c with
      | packHelper => exact ⟨[], rfl, Nat.zero_le _, by simp⟩
      | pack => exact ⟨[0], rfl, hone _⟩
  | required t ih => exact ih .pack
  | sequence ts ih => exact ih .pack
  | struct ts members ih =>
      obtain ⟨bytes, hpack, hbytes⟩ := ih .packHelper
      refine ⟨bytes, ?_, hbytes⟩
      show packed .packHelper ts (members (members.symm (zero ts))) = some bytes
      rw [Equiv.apply_symm_apply]
      exact hpack
  | nil => exact ⟨[], rfl, Nat.zero_le _, by simp⟩
  | cons t ts iht ihts =>
      obtain ⟨a, ha, hla, hza⟩ := iht c
      obtain ⟨b, hb, hlb, hzb⟩ := ihts c
      refine ⟨a ++ b, ?_, length_both hla hlb, zeros_append hza hzb⟩
      rw [packed_cons]
      exact packed_pair ha hb

/-- Behind the count of one element. -/
theorem length_counted {b : Text} {n : Nat} (hb : b.length ≤ n) : (code 1 ++ b).length ≤ 1 + n :=
  length_both (length_code_le Nat.one_pos (by decide)) hb

theorem packed_single {f : β → Option Text} {x : β} {bytes : Text} (h : f x = some bytes) :
    packedAll f [x] = some bytes :=
  packed_all_cons.mpr ⟨bytes, [], h, rfl, List.append_nil bytes⟩

/-! ## A value that does not come back -/

variable [Machine]

/-- With nothing left to read a flag is whatever its byte held before. -/
theorem unpack_bool_end {s : Datastream} (h : s.rest = []) :
    unpackBool s = .ok (Machine.junk != 0, s) := by
  have hle : s.data.length ≤ s.pos := List.drop_eq_nil_iff.mp h
  have hguard : ¬ (1 : UInt32).toInt32.toInt ≤ (s.data.length : Int) - s.pos := by
    rw [show (1 : UInt32).toInt32.toInt = 1 from rfl]
    omega
  have hread : ∀ d, Datastream.read 1 d s = .ok ((false, d), s) := by
    intro d
    rw [Datastream.read, if_neg hguard]
  have hjunk : ([Machine.junk] != ([0] : Text)) = (Machine.junk != 0) := by
    rw [bne, bne, List.cons_beq_cons, BEq.rfl, Bool.and_true]
  show (Datastream.read 1 _ s >>= fun p => Except.ok (p.1.2.toList != [0], p.2)) = _
  rw [hread]
  exact congrArg (fun b => Except.ok (b, s)) hjunk

/-- Some small value of the layout does not come back where `r` follows its bytes. -/
def Loses (c : Caller) (t : Layout k α) (r : Text) : Prop :=
  ∃ v bytes, Counted t v ∧ packed c t v = some bytes ∧ bytes.length ≤ footprint t ∧
    ∀ fill, Misreads (unpack t (construct fill t)) bytes r v

/-- The flag of an optional member is read where none was written. With zeros to come it is taken
to be unset, and behind the end of the buffer it is not determined by what was packed. -/
theorem loses_member (t : Layout .single α) {r : Text} (hr : ∀ b ∈ r, b = 0) :
    Loses .packHelper (.optional t) r := by
  obtain ⟨z, hz, hlength, hzero⟩ := packed_zero .pack t
  have hsmall : z.length ≤ footprint (.optional t) := Nat.le_add_left_of_le hlength
  have hset : Counted (.optional t) (some (zero t)) := by
    intro x hx
    cases hx
    exact counted_zero t
  cases hnext : z ++ r with
  | cons b rest =>
      refine ⟨some (zero t), z, hset, hz, hsmall, ?_⟩
      intro fill s hs s' hv
      have hb : b = 0 := zeros_append hzero hr b (hnext ▸ List.mem_cons_self)
      rw [hnext, hb] at hs
      obtain ⟨flag, s₁, hflag, hrest⟩ := bind_eq_ok hv
      rw [reads_bool false s rest hs] at hflag
      cases hflag
      cases hrest
  | nil =>
      have hz' : z = [] := (List.append_eq_nil_iff.mp hnext).1
      cases hjunk : (Machine.junk != 0) with
      | false =>
          refine ⟨some (zero t), z, hset, hz, hsmall, ?_⟩
          intro fill s hs s' hv
          rw [hnext] at hs
          obtain ⟨flag, s₁, hflag, hrest⟩ := bind_eq_ok hv
          rw [unpack_bool_end hs, hjunk] at hflag
          cases hflag
          cases hrest
      | true =>
          refine ⟨none, z, fun x hx => absurd hx (by simp), by rw [hz']; rfl, hsmall, ?_⟩
          intro fill s hs s' hv
          rw [hnext] at hs
          obtain ⟨flag, s₁, hflag, hrest⟩ := bind_eq_ok hv
          rw [unpack_bool_end hs, hjunk] at hflag
          cases hflag
          obtain ⟨x, s₂, _, hsome⟩ := bind_eq_ok hrest
          cases hsome

theorem loses_signed (c : Caller) (r : Text) : Loses c .signedInt r := by
  refine ⟨2 ^ 30, _, trivial, packed_signed _, length_code_le (by decide) ?_, ?_⟩
  · exact lt_of_lt_of_le (UInt32.toNat_lt _) (by decide)
  intro fill
  exact (reads_signed (2 ^ 30)).misreads (by decide) r

theorem loses_required (c : Caller) (t : Layout .single α) (r : Text) :
    Loses c (.required t) r := by
  obtain ⟨z, hz, hlength, -⟩ := packed_zero c (.required t)
  refine ⟨_, z, counted_zero (.required t), hz, hlength, ?_⟩
  intro fill s hs s' hv
  cases hv

theorem loses_container (c : Caller) {t : Layout .single α} {r : Text} (h : Loses .pack t r) :
    Loses c (.container t) r := by
  obtain ⟨x, b, hcount, hpack, hlength, hread⟩ := h
  refine ⟨[x], code 1 ++ b, ⟨by simp, ?_⟩, ?_, length_counted hlength, ?_⟩
  · intro y hy
    rw [List.mem_singleton.mp hy]
    exact hcount
  · rw [packed_container, packed_single hpack]
    rfl
  · intro fill
    apply Misreads.second (reads_unsigned 1)
    apply (hread 0).first
    intro x' s s' hv
    cases hv
    rfl

theorem loses_set (c : Caller) (cmp : Compare α) {t : Layout .single α} {r : Text}
    (h : Loses .pack t r) : Loses c (.set cmp t) r := by
  obtain ⟨x, b, hcount, hpack, hlength, hread⟩ := h
  refine ⟨Items.single x, code 1 ++ b, ⟨by simp, ?_⟩, ?_, length_counted hlength, ?_⟩
  · intro y hy
    rw [List.mem_singleton.mp hy]
    exact hcount
  · rw [packed_set, packed_container, Items.items_single, packed_single hpack]
    rfl
  · intro fill
    apply Misreads.second (reads_unsigned 1)
    apply Misreads.once
    apply (hread Machine.junk).first
    intro x' s s' hv
    cases hv
    rfl

/-- A map with one entry, whose value is zero. -/
theorem loses_key (c : Caller) (cmp : Compare α) {k : Layout .single α} (t : Layout .single β)
    {r : Text} (hr : ∀ b ∈ r, b = 0) (h : ∀ r, (∀ b ∈ r, b = 0) → Loses .pack k r) :
    Loses c (.map cmp k t) r := by
  obtain ⟨z, hz, hrest, hzero⟩ := packed_zero .pack t
  obtain ⟨x, b, hcount, hpack, hlength, hread⟩ := h (z ++ r) (zeros_append hzero hr)
  refine ⟨Items.single (x, zero t), code 1 ++ (b ++ z), ⟨by simp, ?_⟩, ?_,
    length_counted (length_both hlength hrest), ?_⟩
  · intro y hy
    rw [List.mem_singleton.mp hy]
    exact ⟨hcount, counted_zero t⟩
  · rw [packed_map, Items.items_single, packed_single (packed_pair hpack hz)]
    rfl
  · intro fill
    apply Misreads.second (reads_unsigned 1)
    apply Misreads.append
    apply Misreads.once
    apply (hread Machine.junk).first
    intro x' s s' hv
    obtain ⟨y, s₁, _, hassign⟩ := bind_eq_ok hv
    cases hassign
    rfl

/-- A map with one entry, whose key is zero. -/
theorem loses_mapped (c : Caller) (cmp : Compare α) {k : Layout .single α}
    (hk : plain .pack k = true) {t : Layout .single β} {r : Text} (h : Loses .pack t r) :
    Loses c (.map cmp k t) r := by
  obtain ⟨z, hz, hfirst, -⟩ := packed_zero .pack k
  obtain ⟨x, b, hcount, hpack, hlength, hread⟩ := h
  refine ⟨Items.single (zero k, x), code 1 ++ (z ++ b), ⟨by simp, ?_⟩, ?_,
    length_counted (length_both hfirst hlength), ?_⟩
  · intro y hy
    rw [List.mem_singleton.mp hy]
    exact ⟨counted_zero k, hcount⟩
  · rw [packed_map, Items.items_single, packed_single (packed_pair hz hpack)]
    rfl
  · intro fill
    have hkey := unpack_packed k hk (counted_zero k) hz Machine.junk
    apply Misreads.second (reads_unsigned 1)
    apply Misreads.once
    apply Misreads.second hkey
    apply (hread 0).first
    intro x' s s' hv
    cases hv
    rfl

theorem loses_optional {t : Layout .single α} {r : Text} (h : Loses .pack t r) :
    Loses .pack (.optional t) r := by
  obtain ⟨x, b, hcount, hpack, hlength, hread⟩ := h
  refine ⟨some x, 1 :: b, ?_, by rw [packed_some, hpack]; rfl,
    length_both (Nat.le_refl [(1 : Byte)].length) hlength, ?_⟩
  · intro y hy
    cases hy
    exact hcount
  · intro fill
    apply Misreads.second (reads_bool true)
    apply (hread 0).first
    intro x' s s' hv
    cases hv
    rfl

theorem loses_struct (c : Caller) {S : Type} {ts : Layout .several α} (members : S ≃ α) {r : Text}
    (h : Loses .packHelper ts r) : Loses c (.struct ts members) r := by
  obtain ⟨x, b, hcount, hpack, hlength, hread⟩ := h
  refine ⟨members.symm x, b, ?_, ?_, hlength, ?_⟩
  · show Counted ts (members (members.symm x))
    rw [Equiv.apply_symm_apply]
    exact hcount
  · show packed .packHelper ts (members (members.symm x)) = some b
    rw [Equiv.apply_symm_apply]
    exact hpack
  · intro fill
    rw [construct, unpack, Equiv.apply_symm_apply]
    exact (hread fill).map (fun x' hx' => members.symm.injective hx')

/-- What stands behind the first component is zero. -/
theorem loses_first {c : Caller} {t : Layout .single α} (ts : Layout .several β) {r : Text}
    (hr : ∀ b ∈ r, b = 0) (h : ∀ r, (∀ b ∈ r, b = 0) → Loses c t r) : Loses c (.cons t ts) r := by
  obtain ⟨z, hz, hrest, hzero⟩ := packed_zero c ts
  obtain ⟨x, b, hcount, hpack, hlength, hread⟩ := h (z ++ r) (zeros_append hzero hr)
  refine ⟨(x, zero ts), b ++ z, ⟨hcount, counted_zero ts⟩, ?_, length_both hlength hrest, ?_⟩
  · rw [packed_cons]
    exact packed_pair hpack hz
  · intro fill
    apply Misreads.append
    apply (hread fill).first
    intro x' s s' hv
    obtain ⟨y, s₁, _, hpair⟩ := bind_eq_ok hv
    cases hpair
    rfl

/-- The first component is zero and comes back. -/
theorem loses_later {c : Caller} {t : Layout .single α} (ht : plain c t = true)
    {ts : Layout .several β} {r : Text} (h : Loses c ts r) : Loses c (.cons t ts) r := by
  obtain ⟨z, hz, hfirst, -⟩ := packed_zero c t
  obtain ⟨x, b, hcount, hpack, hlength, hread⟩ := h
  refine ⟨(zero t, x), z ++ b, ⟨counted_zero t, hcount⟩, ?_, length_both hfirst hlength, ?_⟩
  · rw [packed_cons]
    exact packed_pair hz hpack
  · intro fill
    apply Misreads.second (unpack_packed t ht (counted_zero t) hz fill)
    apply (hread fill).first
    intro x' s s' hv
    cases hv
    rfl

/-- In every layout that is not plain some value does not come back, where zeros follow. -/
theorem loses_of_not_plain {c : Caller} (t : Layout k α) (h : plain c t = false) {r : Text}
    (hr : ∀ b ∈ r, b = 0) : Loses c t r := by
  induction t generalizing c r with
  | signedInt => exact loses_signed c r
  | container t ih => exact loses_container c (ih h hr)
  | set cmp t ih => exact loses_set c cmp (ih h hr)
  | map cmp k t ihk iht =>
      cases hk : plain .pack k with
      | false => exact loses_key c cmp t hr (fun r hr => ihk hk hr)
      | true =>
          rw [plain, hk, Bool.true_and] at h
          exact loses_mapped c cmp hk (iht h hr)
  | optional t ih =>
      cases c with
      | packHelper => exact loses_member t hr
      | pack => exact loses_optional (ih h hr)
  | required t ih => exact loses_required c t r
  | sequence ts ih => exact ih h hr
  | struct ts members ih => exact loses_struct c members (ih h hr)
  | cons t ts iht ihts =>
      cases ht : plain c t with
      | false => exact loses_first ts hr (fun r hr => iht ht hr)
      | true =>
          rw [plain, ht, Bool.true_and] at h
          exact loses_later ht (ihts h hr)
  | _ => cases h

/-! ## Struct types -/

/-- All values of a struct type without a size of 2^32 or more that fit into a `datastream`, or have
no more bytes than its small values need, come back if and only if no part of the type is an
optional struct member, a `signed_int` or a `required`. -/
theorem struct_round_trip_iff {S : Type} (ts : Layout .several α) (members : S ≃ α) :
    (∀ v bytes, Counted (.struct ts members) v →
      pack .pack (.struct ts members) ([] : Text) v = some bytes →
      bytes.length < 2 ^ 32 ∨ bytes.length ≤ footprint ts →
      ∀ fill, unpack (.struct ts members) (construct fill (.struct ts members)) (.new bytes) =
        .ok (v, ⟨bytes, bytes.length⟩)) ↔ plain .packHelper ts = true := by
  constructor
  · intro h
    cases hplain : plain .packHelper ts with
    | true => rfl
    | false =>
        obtain ⟨v, bytes, hcount, hpack, hlength, hread⟩ := loses_of_not_plain (c := .pack)
          (.struct ts members) hplain (fun b hb => absurd hb List.not_mem_nil)
        exact absurd (h v bytes hcount hpack (Or.inr hlength) 0)
          (hread 0 (.new bytes) (List.append_nil bytes).symm _)
  · intro hplain v bytes hcount hpack _ fill
    have hread := unpack_packed (c := .pack) (.struct ts members) hplain hcount hpack fill
    rw [hread (.new bytes) [] (List.append_nil bytes).symm, Datastream.skip, Datastream.new,
      Nat.zero_add]

omit [Machine] in
/-- A struct of an unset optional `unsigned_int` and an `unsigned_int`: the byte of the second is
taken for the flag of the first. -/
theorem unset_member_read :
    letI := Machine.x86
    let t : Layout .single (Option UInt32 × UInt32 × Unit) :=
      .struct (.cons (.optional .unsignedInt) (.cons .unsignedInt .nil)) (Equiv.refl _)
    let v : Option UInt32 × UInt32 × Unit := (none, 5, ())
    let w : Option UInt32 × UInt32 × Unit := (some 0, 0, ())
    pack .pack t ([] : Text) v = some [5] ∧
      unpack t (construct 0 t) (.new [5]) = .ok (w, ⟨[5], 3⟩) ∧ w ≠ v := by
  refine ⟨?_, rfl, by simp⟩
  show some (packUnsigned [] 5) = some [5]
  rw [pack_unsigned_text]
  exact congrArg some (code_small (by decide))

/-- `error_object` -/
def errorObject : Layout .single (Option Int32 × Option Text × Option Text × Unit) :=
  .struct
    (.cons (.required .signedInt) (.cons (.optional .string) (.cons (.optional .string) .nil)))
    (Equiv.refl _)

/-- `message` -/
def message : Layout .single (Option Int32 × Option Int32 × Option Text × Option Text ×
    Option Text × Option (Option Int32 × Option Text × Option Text × Unit) × Unit) :=
  .struct (.cons (.optional .signedInt) (.cons (.optional .signedInt) (.cons (.optional .string)
    (.cons (.optional .string) (.cons (.optional .string) (.cons (.optional errorObject) .nil))))))
    (Equiv.refl _)

example : plain .pack errorObject = false ∧ plain .pack message = false := ⟨rfl, rfl⟩

end BoostRpc.Raw
