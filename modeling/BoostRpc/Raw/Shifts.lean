import BoostRpc.Lts
import BoostRpc.Raw.Termination
import BoostRpc.Raw.Validity

/-!
# The shifts of the integer decoders

Every iteration of the loops of `raw::unpack` shifts 32 bits by a counter that grows by seven, and
none of them looks at how far it has come. `loop` is the system whose steps are the iterations, and
`get_groups_reached` says that they are those of `getGroups`. `shifts_in_range_iff` tells for both
decoders which bytes keep all shifts in range and give the number that the bytes stand for.
-/

namespace BoostRpc.Raw

open Base128

/-- What the variables of the loop hold in front of an iteration. -/
structure Loop where
  stream : Datastream
  v : Nat
  b : Byte
  /-- `by` -/
  shift : Nat

/-- In front of the first iteration. -/
def Loop.entered (s : Datastream) : Loop := ⟨s, 0, 0, 0⟩

variable [Machine] {β : Type}

/-- The body of the loop. -/
def Loop.turn (count : Nat → Nat) (l : Loop) : Loop :=
  let (_, b, s) := l.stream.get l.b
  ⟨s, l.v ||| (shiftLeft (b &&& 0x7f).toUInt32 l.shift).toNat, b, count (l.shift + 7)⟩

/-- The loop over a stream. It takes a step where another iteration follows. -/
def loop (count : Nat → Nat) (s : Datastream) : Lts.System Loop Unit where
  start l := l = .entered s
  step l _ := if (l.turn count).b &&& 0x80 = 0 then .impossible else .next (l.turn count)

/-- Some iterations lead to this one. -/
def Reached (count : Nat → Nat) (s : Datastream) (l : Loop) : Prop :=
  ∃ es, Lts.Run (loop count s) (fun _ _ => True) es l

/-- `getGroups` makes an iteration and goes on, or not. -/
theorem get_groups_turn (count : Nat → Nat) (fuel : Nat) (l : Loop) :
    getGroups count (fuel + 1) l.stream l.v l.b l.shift =
      if (l.turn count).b &&& 0x80 = 0 then .ok ((l.turn count).v, (l.turn count).stream)
      else getGroups count fuel (l.turn count).stream (l.turn count).v (l.turn count).b
        (l.turn count).shift := rfl

variable {count : Nat → Nat} {s : Datastream} {l : Loop}

theorem Reached.entered : Reached count s (.entered s) := ⟨[], .start _ rfl⟩

/-- Another iteration follows on one whose byte asks for it. -/
theorem Reached.turn (h : Reached count s l) (hb : 128 ≤ (l.turn count).b.toNat) :
    Reached count s (l.turn count) := by
  obtain ⟨es, hrun⟩ := h
  have htop : ¬ (l.turn count).b &&& 0x80 = 0 := by rw [top_bit_clear]; omega
  exact ⟨es ++ [()], .step es l _ () hrun trivial (if_neg htop)⟩

/-- What holds in front of the first iteration, and behind each iteration that another one follows,
holds in front of all. -/
theorem Reached.invariant {P : Loop → Prop} (h : Reached count s l) (hstart : P (.entered s))
    (hturn : ∀ l, P l → 128 ≤ (l.turn count).b.toNat → P (l.turn count)) : P l := by
  obtain ⟨es, hrun⟩ := h
  refine hrun.invariant ?_ ?_
  · intro l hl
    obtain rfl : l = .entered s := hl
    exact hstart
  · intro l _ l' hl _ hstep
    simp only [loop] at hstep
    split at hstep
    · cases hstep
    · rename_i htop
      rw [top_bit_clear] at htop
      cases hstep
      exact hturn l hl (by omega)

/-- The iterations are those of `getGroups`. -/
theorem get_groups_reached (h : Reached count s l) :
    ∃ n, ∀ fuel, getGroups count (fuel + n) s 0 0 0 =
      getGroups count fuel l.stream l.v l.b l.shift := by
  refine h.invariant (P := fun l => ∃ n, ∀ fuel, getGroups count (fuel + n) s 0 0 0 =
    getGroups count fuel l.stream l.v l.b l.shift) ⟨0, fun fuel => rfl⟩ ?_
  intro l ih hb
  obtain ⟨n, ih⟩ := ih
  refine ⟨n + 1, ?_⟩
  intro fuel
  have htop : ¬ (l.turn count).b &&& 0x80 = 0 := by rw [top_bit_clear]; omega
  rw [show fuel + (n + 1) = fuel + 1 + n by omega, ih, get_groups_turn, if_neg htop]

/-! ## One iteration -/

@[simp] theorem turn_stream (l : Loop) : (l.turn count).stream = l.stream.skip 1 := by
  cases hrest : l.stream.rest with
  | nil => simp only [Loop.turn, Datastream.get_end hrest]
  | cons c r => simp only [Loop.turn, Datastream.get_rest hrest]

@[simp] theorem turn_shift (l : Loop) : (l.turn count).shift = count (l.shift + 7) := rfl

/-- An iteration on a byte of the buffer. -/
theorem turn_rest {c : Byte} {r : Text} (h : l.stream.rest = c :: r) : (l.turn count).b = c := by
  simp only [Loop.turn, Datastream.get_rest h]

/-- An iteration past the end. -/
theorem turn_end (h : l.stream.rest = []) : (l.turn count).b = l.b := by
  simp only [Loop.turn, Datastream.get_end h]

/-! ## What keeps the shifts in range -/

/-- There are no bytes, or the first ones are a number in at most five bytes, of which the fifth
holds no more than the four bits that are left. -/
def Short (bytes : Text) : Prop :=
  bytes = [] ∨ ∃ bs r, bytes = bs ++ r ∧ Terminated bs ∧ bs.length ≤ 5 ∧
    ∀ c ∈ bs[4]?, c.toNat < 16

/-- All iterations of a decoder whose counter stays below a limit shift by fewer than 32 bits, and
what it returns is made of the number that the bytes it has taken stand for, or the stream is not
valid any more: a decoder has no other way to reject them. -/
structure ShiftsInRange (count : Nat → Nat) (limit : Nat) (reader : Reader β) (f : UInt32 → β)
    (s : Datastream) : Prop where
  shift : ∀ l, Reached count s l → l.shift < 32
  counter : ∀ l, Reached count s l → l.shift + 7 < limit
  result : ∃ x m, reader s = .ok (x, s.skip m) ∧
    ((∃ n : UInt32, n.toNat = value (s.rest.take m) ∧ x = f n) ∨ (s.skip m).valid = false)

omit [Machine] in
/-- A number in at most five bytes has 32 bits where the fifth byte holds four. -/
theorem value_short_iff {bs : Text} (hbs : Terminated bs) (hlen : bs.length ≤ 5) :
    value bs < 2 ^ 32 ↔ ∀ c ∈ bs[4]?, c.toNat < 16 := by
  obtain ⟨front, last, rfl, -, hlast⟩ := terminated_iff.mp hbs
  rw [List.length_append, List.length_singleton] at hlen
  by_cases hfront : front.length = 4
  · have hfifth : (front ++ [last])[4]? = some last := by
      rw [List.getElem?_append_right (by omega), hfront]
      rfl
    have hvalue : value (front ++ [last]) = value front + 128 ^ 4 * last.toNat := by
      rw [value_append, hfront]
      show value front + 128 ^ 4 * (last.toNat % 128 + 128 * 0) = _
      rw [Nat.mod_eq_of_lt hlast, Nat.mul_zero, Nat.add_zero]
    have hlow := value_lt front
    rw [hfront] at hlow
    rw [hfifth, hvalue]
    constructor
    · intro h c hc
      obtain rfl := Option.mem_some.mp hc
      omega
    · intro h
      have hc := h last rfl
      omega
  · have hnone : (front ++ [last])[4]? = none := by
      rw [List.getElem?_eq_none_iff, List.length_append, List.length_singleton]
      omega
    have hlt := value_lt (front ++ [last])
    have hpow : 128 ^ (front ++ [last]).length ≤ 128 ^ 4 := by
      refine Nat.pow_le_pow_right (by omega) ?_
      rw [List.length_append, List.length_singleton]
      omega
    rw [hnone]
    exact ⟨fun _ => nofun, fun _ => by omega⟩

/-- As long as all bytes ask for another one, the counter grows by seven, also past the end. -/
theorem reached_after (hcount : ∀ n, n < 256 → count n = n) (hne : s.rest ≠ []) {k : Nat}
    (hk : k ≤ 5) (h : ∀ c ∈ s.rest.take k, 128 ≤ c.toNat) :
    ∃ l, Reached count s l ∧ l.stream = s.skip k ∧ l.shift = 7 * k ∧ (0 < k → 128 ≤ l.b.toNat) := by
  induction k with
  | zero => exact ⟨_, .entered, rfl, rfl, nofun⟩
  | succ k ih =>
      have hfirst : ∀ c ∈ s.rest.take k, 128 ≤ c.toNat := by
        intro c hc
        exact h c (List.take_subset_take_left _ (Nat.le_succ k) hc)
      obtain ⟨l, hl, hstream, hshift, hb⟩ := ih (by omega) hfirst
      have hrest : l.stream.rest = s.rest.drop k := by rw [hstream, Datastream.rest_skip]
      have hbyte : 128 ≤ (l.turn count).b.toNat := by
        cases hdrop : s.rest.drop k with
        | nil =>
            rw [turn_end (hrest.trans hdrop)]
            refine hb (Nat.pos_of_ne_zero ?_)
            intro hzero
            rw [hzero, List.drop_zero] at hdrop
            exact hne hdrop
        | cons c r =>
            rw [turn_rest (hrest.trans hdrop)]
            refine h c ?_
            rw [List.take_add_one]
            have hget : s.rest[k]? = some c := by
              rw [← List.head?_drop, hdrop]
              rfl
            rw [hget]
            exact List.mem_append_right _ (List.mem_singleton.mpr rfl)
      refine ⟨_, hl.turn hbyte, ?_, ?_, fun _ => hbyte⟩
      · rw [turn_stream, hstream, Datastream.skip_skip]
      · rw [turn_shift, hshift, hcount _ (by omega)]
        omega

/-- The iterations over a number of at most five bytes: each is at one of its bytes. -/
theorem reached_short (hcount : ∀ n, n < 256 → count n = n) {bs r : Text} (hbs : Terminated bs)
    (hlen : bs.length ≤ 5) (hs : s.rest = bs ++ r) (h : Reached count s l) : l.shift ≤ 28 := by
  have hinv : ∃ front back, bs = front ++ back ∧ Terminated back ∧ l.stream.rest = back ++ r ∧
      l.shift = 7 * front.length := by
    refine h.invariant (P := fun l => ∃ front back, bs = front ++ back ∧ Terminated back ∧
      l.stream.rest = back ++ r ∧ l.shift = 7 * front.length) ⟨[], bs, rfl, hbs, hs, rfl⟩ ?_
    intro l hl hbyte
    obtain ⟨front, back, rfl, hback, hrest, hshift⟩ := hl
    cases hback with
    | last c hc =>
        rw [turn_rest hrest] at hbyte
        omega
    | more c back hc hback =>
        have hpos := hback.length_pos
        rw [List.length_append, List.length_cons] at hlen
        refine ⟨front ++ [c], back, ?_, hback, ?_, ?_⟩
        · rw [List.append_assoc, List.singleton_append]
        · rw [turn_stream]
          exact Datastream.rest_skip_cons hrest
        · rw [turn_shift, hshift, hcount _ (by omega), List.length_append, List.length_singleton]
          omega
  obtain ⟨front, back, rfl, hback, -, hshift⟩ := hinv
  have hpos := hback.length_pos
  rw [List.length_append] at hlen
  omega

/-- Without bytes there is one iteration. -/
theorem reached_empty (hs : s.rest = []) (h : Reached count s l) : l.shift = 0 := by
  have hinv : l = .entered s := by
    refine h.invariant (P := fun l => l = .entered s) rfl ?_
    intro l hl hbyte
    obtain rfl := hl
    rw [turn_end hs] at hbyte
    exact absurd hbyte (Nat.not_le.mpr Nat.ofNat_pos)
  rw [hinv]
  rfl

/-- The loop takes all bytes of a number in at most five bytes, whatever it makes of them. -/
theorem read_groups_takes (hcount : ∀ n, n < 256 → count n = n) {bs r : Text}
    (hbs : Terminated bs) (hlen : bs.length ≤ 5) (hs : s.rest = bs ++ r) :
    ∃ v, readGroups count s = .ok (v, s.skip bs.length) := by
  obtain ⟨front, last, rfl, hfront, hlast⟩ := terminated_iff.mp hbs
  rw [List.length_append, List.length_singleton] at hlen
  have hne : s.rest ≠ [] := by
    rw [hs, List.append_assoc]
    exact List.append_ne_nil_of_right_ne_nil _ (List.cons_ne_nil _ _)
  have htake : s.rest.take front.length = front := by
    rw [hs, List.append_assoc, List.take_left]
  obtain ⟨l, hl, hstream, -⟩ := reached_after hcount hne (show front.length ≤ 5 by omega)
    (htake.symm ▸ hfront)
  -- the iteration at the last byte is the last one
  have hrest : l.stream.rest = last :: r := by
    rw [hstream]
    exact Datastream.rest_skip_append (by rw [hs, List.append_assoc, List.singleton_append])
  obtain ⟨n, hn⟩ := get_groups_reached hl
  have hfuel := get_groups_fuel count (show s.rest.length < s.rest.length + 1 + n by omega) 0 0 0
  refine ⟨(l.turn count).v, ?_⟩
  rw [readGroups, ← hfuel, hn, get_groups_turn, turn_rest hrest,
    if_pos ((top_bit_clear last).mpr hlast), turn_stream, hstream, Datastream.skip_skip,
    List.length_append, List.length_singleton]

/-- The number that the loop makes of one in at most five bytes that has 32 bits. -/
theorem read_groups_short (hcount : ∀ n, n < 256 → count n = n) {bs r : Text}
    (hbs : Terminated bs) (hlen : bs.length ≤ 5) (hvalue : value bs < 2 ^ 32)
    (hs : s.rest = bs ++ r) : readGroups count s = .ok (value bs, s.skip bs.length) := by
  have hfuel : bs.length ≤ s.rest.length + 1 := by
    rw [hs, List.length_append]
    omega
  rw [readGroups, get_groups_terminated hcount hbs hs hfuel (by omega) (by omega)
    (by rwa [Nat.pow_zero, Nat.mul_one]), Nat.zero_add, Nat.pow_zero, Nat.mul_one]

/-- Without bytes the loop returns zero. -/
theorem read_groups_empty (hs : s.rest = []) : readGroups count s = .ok (0, s.skip 1) := by
  have hzero : (0 : Byte) &&& 0x80 = 0 := rfl
  have hvalue : 0 ||| (shiftLeft ((0 : Byte) &&& 0x7f).toUInt32 0).toNat = 0 :=
    add_group Nat.one_pos (by omega) (by decide)
  simp only [readGroups, getGroups, Datastream.get_end hs, if_pos hzero, hvalue]

omit [Machine] in
/-- Behind bytes that were there the stream is valid. -/
theorem valid_behind {bs r : Text} (hbs : Terminated bs) (hs : s.rest = bs ++ r) :
    (s.skip bs.length).valid = true := by
  have hpos := hbs.length_pos
  have hlen := congrArg List.length hs
  rw [Datastream.rest, List.length_drop, List.length_append] at hlen
  refine decide_eq_true ?_
  show s.pos + bs.length ≤ s.data.length
  omega

/-- What the decoder that converts the number of the loop returns. -/
theorem decodes {v : Nat} {t : Datastream} (f : UInt32 → β) (h : readGroups count s = .ok (v, t)) :
    (readGroups count >>= fun v => Pure.pure (f (UInt32.ofNat v))) s =
      .ok (f (UInt32.ofNat v), t) := by
  change (readGroups count s >>= fun p => Except.ok (f (UInt32.ofNat p.1), p.2)) = _
  rw [h]
  rfl

variable {limit : Nat} {f : UInt32 → β}

/-- On other bytes a decoder shifts too far, or it loses bits of the fifth byte. -/
theorem short_of_ranges (hcount : ∀ n, n < 256 → count n = n)
    (h : ShiftsInRange count limit (readGroups count >>= fun v => Pure.pure (f (UInt32.ofNat v))) f
      s) : Short s.rest := by
  by_cases hne : s.rest = []
  · exact .inl hne
  · refine .inr ?_
    rcases starts_terminated_or (s.rest.take 5) with ⟨bs, r, htake, hbs⟩ | hall
    · have hs : s.rest = bs ++ (r ++ s.rest.drop 5) := by
        rw [← List.append_assoc, ← htake, List.take_append_drop]
      have hlen : bs.length ≤ 5 := by
        have hfive := List.length_take_le 5 s.rest
        rw [htake, List.length_append] at hfive
        omega
      obtain ⟨v, hread⟩ := read_groups_takes hcount hbs hlen hs
      obtain ⟨x, m, hresult, hx⟩ := h.result
      have hskip : s.skip bs.length = s.skip m := by
        rw [decodes f hread] at hresult
        exact (Prod.mk.inj (Except.ok.inj hresult)).2
      have hm : m = bs.length := by
        have hpos := congrArg Datastream.pos hskip
        simp only [Datastream.skip] at hpos
        omega
      rcases hx with ⟨n, hn, -⟩ | hinvalid
      · have hvalue : value bs < 2 ^ 32 := by
          rw [hm, hs, List.take_left] at hn
          exact hn ▸ n.toNat_lt
        exact ⟨bs, _, hs, hbs, hlen, (value_short_iff hbs hlen).mp hvalue⟩
      · rw [hm, valid_behind hbs hs] at hinvalid
        cases hinvalid
    · -- the sixth iteration
      obtain ⟨l, hl, -, hshift, -⟩ := reached_after hcount hne (Nat.le_refl 5) hall
      have hlt := h.shift l hl
      omega

/-- On these bytes a decoder whose counter holds small numbers keeps to the range. -/
theorem ranges_of_short (hcount : ∀ n, n < 256 → count n = n) (hlimit : 35 < limit)
    (h : Short s.rest) :
    ShiftsInRange count limit (readGroups count >>= fun v => Pure.pure (f (UInt32.ofNat v))) f
      s := by
  rcases h with hnil | ⟨bs, r, hs, hbs, hlen, hfifth⟩
  · refine ⟨?_, ?_, ⟨_, 1, decodes f (read_groups_empty hnil), .inl ⟨0, ?_, rfl⟩⟩⟩
    · intro l hl
      rw [reached_empty hnil hl]
      omega
    · intro l hl
      rw [reached_empty hnil hl]
      omega
    · rw [hnil]
      rfl
  · have hvalue := (value_short_iff hbs hlen).mpr hfifth
    refine ⟨?_, ?_, ⟨_, _, decodes f (read_groups_short hcount hbs hlen hvalue hs),
      .inl ⟨_, ?_, rfl⟩⟩⟩
    · intro l hl
      have hshift := reached_short hcount hbs hlen hs hl
      omega
    · intro l hl
      have hshift := reached_short hcount hbs hlen hs hl
      omega
    · rw [hs, List.take_left]
      exact UInt32.toNat_ofNat_of_lt' hvalue

/-- Both decoders keep their shifts in range, and return the number that is there, exactly where it
has at most five bytes and 32 bits or where there are no bytes. -/
theorem shifts_in_range_iff (s : Datastream) :
    (ShiftsInRange (· % 256) (2 ^ 8) unpackUnsigned id s ↔ Short s.rest) ∧
      (ShiftsInRange id (2 ^ 31) unpackSigned unzigzag s ↔ Short s.rest) := by
  have hmod : ∀ n, n < 256 → n % 256 = n := fun n hn => Nat.mod_eq_of_lt hn
  have hid : ∀ n, n < 256 → id n = n := fun n _ => rfl
  exact ⟨⟨short_of_ranges (f := id) hmod, ranges_of_short (f := id) hmod (by omega)⟩,
    ⟨short_of_ranges hid, ranges_of_short hid (by omega)⟩⟩

omit [Machine] in
/-- The sixth byte of a zero in six bytes is shifted by 35. -/
theorem shift_of_six_bytes :
    letI := Machine.x86
    ¬ ShiftsInRange (· % 256) (2 ^ 8) unpackUnsigned id (.new [128, 128, 128, 128, 128, 0]) := by
  let _ := Machine.x86
  intro h
  have hmod : ∀ n, n < 256 → n % 256 = n := fun n hn => Nat.mod_eq_of_lt hn
  have hall : ∀ c ∈ [(128 : Byte), 128, 128, 128, 128], 128 ≤ c.toNat := by
    intro c hc
    obtain rfl : c = 128 := List.eq_of_mem_replicate (n := 5) hc
    exact Nat.le_refl 128
  obtain ⟨l, hl, -, hshift, -⟩ := reached_after hmod
    (s := .new [128, 128, 128, 128, 128, 0]) (List.cons_ne_nil _ _) (Nat.le_refl 5) hall
  have hlt := h.shift l hl
  omega

end BoostRpc.Raw
