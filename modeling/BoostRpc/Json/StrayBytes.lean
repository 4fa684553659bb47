import BoostRpc.Json.Nesting
import BoostRpc.Json.Notation

/-!
# Bytes between messages

`cut` is the framing of `read_loop` apart from what becomes of the frames (`read_loop_cut`). The
depth counts the brackets outside quotes wherever they stand: `behind_of_cut` has the variables of
the loop from the bytes alone. `between_messages_iff` says which bytes between messages leave the
framing as it is.
-/

namespace BoostRpc.Json

/-! ## Framing and treatment -/

/-- The frames that the loop cuts a stream into, and the variables behind it; `none` where the depth
leaves the range of `int`. -/
def FrameState.cut : FrameState → Text → List Text × Option FrameState
  | s, [] => ([], some s)
  | s, c :: input =>
      match s.turn c with
      | none => ([], none)
      | some (s, frame) => (frame.toList ++ (s.cut input).1, (s.cut input).2)

theorem cut_none {s : FrameState} {c : Byte} (h : s.turn c = none) (input : Text) :
    s.cut (c :: input) = ([], none) := by
  rw [FrameState.cut, h]

theorem cut_some {s s' : FrameState} {c : Byte} {frame : Option Text}
    (h : s.turn c = some (s', frame)) (input : Text) :
    s.cut (c :: input) = (frame.toList ++ (s'.cut input).1, (s'.cut input).2) := by
  rw [FrameState.cut, h]

/-- One frame after the other, up to the first that does not return. -/
def treat {σ : Type} (deliver : Text → σ → σ × Treated) : σ → List Text → σ × Treated
  | st, [] => (st, .returned)
  | st, frame :: frames =>
      match deliver frame st with
      | (st, .returned) => treat deliver st frames
      | (st, .threw e) => (st, .threw e)
      | (st, .diverged) => (st, .diverged)
      | (st, .undefined) => (st, .undefined)

/-- How the loop ends, from how the frames end and the variables behind the stream. -/
def LoopEnd.of {σ : Type} (behind : Option FrameState) : σ × Treated → LoopEnd σ
  | (st, .returned) =>
      match behind with
      | some s => .finished s st
      | none => .undefined
  | (st, .threw e) => .threw st e
  | (st, .diverged) => .diverged st
  | (_, .undefined) => .undefined

/-- The loop treats the frames that it cuts. -/
theorem read_loop_cut {σ : Type} (deliver : Text → σ → σ × Treated) (s : FrameState) (st : σ)
    (input : Text) :
    readLoop deliver s st input = .of (s.cut input).2 (treat deliver st (s.cut input).1) := by
  induction input generalizing s st with
  | nil => rfl
  | cons c input ih =>
      cases hturn : s.turn c with
      | none =>
          rw [cut_none hturn, readLoop, hturn]
          rfl
      | some result =>
          obtain ⟨next, frame⟩ := result
          rw [cut_some hturn, readLoop, hturn]
          cases frame with
          | none => exact ih next st
          | some frame =>
              obtain ⟨⟨st', outcome⟩, hdeliver⟩ : ∃ treated, deliver frame st = treated := ⟨_, rfl⟩
              simp only [Option.toList_some, List.singleton_append, treat, hdeliver]
              cases outcome with
              | returned => exact ih next st'
              | threw | diverged | undefined => rfl

theorem treat_append (seen fs : List Text) :
    treat (fun frame seen => (seen ++ [frame], .returned)) seen fs = (seen ++ fs, .returned) := by
  induction fs generalizing seen with
  | nil => simp [treat]
  | cons frame fs ih => simp [treat, ih]

/-- The loop comes to the end of the stream with the frames and the variables of `cut`. -/
theorem frames_eq_iff {input : Text} {s : FrameState} {fs : List Text} :
    frames input = .finished s fs ↔ FrameState.initial.cut input = (fs, some s) := by
  rw [frames, read_loop_cut, treat_append, List.nil_append]
  generalize FrameState.initial.cut input = result
  obtain ⟨frames, behind⟩ := result
  cases behind with
  | none => simp [LoopEnd.of]
  | some s' => simp [LoopEnd.of, and_comm]

/-- A stream is cut as its parts are, one behind the other. -/
theorem cut_append {s s' : FrameState} {first : Text} {fs : List Text}
    (h : s.cut first = (fs, some s')) (rest : Text) :
    s.cut (first ++ rest) = (fs ++ (s'.cut rest).1, (s'.cut rest).2) := by
  induction first generalizing s fs with
  | nil =>
      obtain ⟨rfl, hs⟩ := Prod.mk.inj h
      rw [Option.some.inj hs]
      rfl
  | cons c first ih =>
      cases hturn : s.turn c with
      | none =>
          rw [cut_none hturn] at h
          cases h
      | some result =>
          obtain ⟨next, frame⟩ := result
          rw [cut_some hturn] at h
          obtain ⟨rfl, hs⟩ := Prod.mk.inj h
          rw [List.cons_append, cut_some hturn, ih (Prod.ext rfl hs), List.append_assoc]

/-- A turn adds the byte to the buffer, or makes a frame of it. -/
theorem turn_length {s s' : FrameState} {c : Byte} {frame : Option Text}
    (h : s.turn c = some (s', frame)) : s'.buf.length ≤ s.buf.length + 1 ∧
      ∀ f ∈ frame.toList, f.length ≤ s.buf.length + 1 := by
  have hscan : ∀ next, s.scan c = some next → next.buf = s.buf := by
    intro next hnext
    unfold FrameState.scan at hnext
    split_ifs at hnext
    all_goals
      rw [← Option.some.inj hnext]
  unfold FrameState.turn at h
  obtain ⟨next, hnext, h⟩ := Option.bind_eq_some_iff.mp h
  have hbuf := hscan next hnext
  have hlength : (if next.found = true then { next with buf := next.buf ++ [c] }
      else next).buf.length ≤ s.buf.length + 1 := by
    split_ifs
    · simp [hbuf]
    · simp [hbuf]
  generalize (if next.found = true then { next with buf := next.buf ++ [c] } else next) = kept
    at h hlength
  dsimp only at h
  split_ifs at h
  all_goals
    obtain ⟨rfl, rfl⟩ := Prod.mk.inj (Option.some.inj h)
    simp [hlength]

/-- A frame has no more bytes than the buffer and the stream. -/
theorem cut_length (s : FrameState) (input : Text) :
    ∀ frame ∈ (s.cut input).1, frame.length ≤ s.buf.length + input.length := by
  induction input generalizing s with
  | nil => exact List.forall_mem_nil _
  | cons c input ih =>
      cases hturn : s.turn c with
      | none =>
          rw [cut_none hturn]
          exact List.forall_mem_nil _
      | some result =>
          obtain ⟨next, frame⟩ := result
          obtain ⟨hbuf, hframe⟩ := turn_length hturn
          rw [cut_some hturn]
          intro f hf
          rw [List.length_cons]
          rcases List.mem_append.mp hf with hnow | hlater
          · have hbound := hframe f hnow
            omega
          · have hbound := ih next f hlater
            omega

/-! ## The variables of the loop -/

/-- The variables behind the bytes `p`, where `buf` has what was buffered of the frame that is
open. -/
def FrameState.behind (p buf : Text) : FrameState where
  depth := apparentDepth p
  quote := !(Mode.start.after p).sees
  found := decide (0 < apparentDepth p)
  buf := if 0 < apparentDepth p then buf else []

theorem behind_nil : FrameState.behind [] [] = .initial := rfl

/-- The tests on a byte count it, where the depth stays in range. -/
theorem scan_behind {p buf : Text} {c : Byte} (hp : InInt (apparentDepth p)) :
    (FrameState.behind p buf).scan c =
      if InInt (apparentDepth (p ++ [c])) then
        some { FrameState.behind (p ++ [c]) buf with
          found := decide (0 < apparentDepth p) || decide (0 < apparentDepth (p ++ [c]))
          buf := if 0 < apparentDepth p then buf else [] }
      else none := by
  have hsees := Mode.sees_next (Mode.start.after p) c
  cases h : (Mode.start.after p).sees with
  | false =>
      have hdepth : apparentDepth (p ++ [c]) = apparentDepth p := by
        simp [apparent_depth_snoc, h]
      have hquote : (c != ch '"') = !((Mode.start.after p).next c).sees := by
        rw [hsees, h, Bool.false_xor, bne]
      simp only [FrameState.scan, FrameState.behind, h, Bool.not_false, if_true, hdepth,
        after_snoc, if_pos hp, hquote, Bool.or_self]
  | true =>
      have hdepth : apparentDepth (p ++ [c]) = apparentDepth p + bracket c := by
        simp [apparent_depth_snoc, h]
      have hquote : (c == ch '"') = !((Mode.start.after p).next c).sees := by
        rw [hsees, h, Bool.true_xor, Bool.not_not]
      simp only [FrameState.scan, FrameState.behind, h, Bool.not_true, Bool.false_eq_true, if_false,
        hdepth, after_snoc, hquote]

/-- A turn counts the byte, and ends a frame where the depth comes down to zero. -/
theorem turn_behind {p : Text} {c : Byte} (buf : Text) (hp : InInt (apparentDepth p)) :
    (FrameState.behind p buf).turn c =
      if InInt (apparentDepth (p ++ [c])) then
        some (.behind (p ++ [c]) ((if 0 < apparentDepth p then buf else []) ++ [c]),
          if 0 < apparentDepth p ∧ apparentDepth (p ++ [c]) = 0 then some (buf ++ [c]) else none)
      else none := by
  by_cases hrange : InInt (apparentDepth (p ++ [c]))
  · have hstep := apparent_depth_step p c
    simp only [FrameState.turn, scan_behind hp, if_pos hrange]
    rcases lt_or_ge 0 (apparentDepth (p ++ [c])) with hopen | hclosed
    · simp [FrameState.behind, hopen, hopen.ne']
    · rcases lt_or_ge 0 (apparentDepth p) with hwas | hwas
      · have hzero : apparentDepth (p ++ [c]) = 0 := by omega
        simp [FrameState.behind, hwas, hzero]
      · simp [FrameState.behind, not_lt.mpr hclosed, not_lt.mpr hwas]
  · simp only [FrameState.turn, scan_behind hp, if_neg hrange]
    rfl

/-- What the prefixes of a stream behind `p` are counted as has to stay in range. -/
theorem range_cons {p : Text} {c : Byte} {input : Text} :
    (∀ q, q <+: c :: input → InInt (apparentDepth (p ++ q))) ↔
      InInt (apparentDepth p) ∧ ∀ q, q <+: input → InInt (apparentDepth (p ++ [c] ++ q)) := by
  constructor
  · intro h
    refine ⟨by simpa using h [] List.nil_prefix, fun q hq => ?_⟩
    simpa using h (c :: q) (List.cons_prefix_cons.mpr ⟨rfl, hq⟩)
  · rintro ⟨hp, hrest⟩ q hq
    rcases List.prefix_cons_iff.mp hq with rfl | ⟨r, rfl, hr⟩
    · simpa using hp
    · simpa using hrest r hr

/-- Where the loop reaches the end of a stream, the depth has stayed in range and the variables are
those of the bytes. -/
theorem behind_of_cut {p buf input : Text} {fs : List Text} {s : FrameState}
    (hp : InInt (apparentDepth p)) (h : (FrameState.behind p buf).cut input = (fs, some s)) :
    (∀ q, q <+: input → InInt (apparentDepth (p ++ q))) ∧
      ∃ kept, s = .behind (p ++ input) kept := by
  induction input generalizing p buf fs with
  | nil =>
      obtain ⟨-, hs⟩ := Prod.mk.inj h
      refine ⟨fun q hq => ?_, buf, by rw [List.append_nil]; exact (Option.some.inj hs).symm⟩
      rwa [List.prefix_nil.mp hq, List.append_nil]
  | cons c input ih =>
      by_cases hrange : InInt (apparentDepth (p ++ [c]))
      · have hturn := turn_behind (c := c) buf hp
        rw [if_pos hrange] at hturn
        rw [cut_some hturn] at h
        obtain ⟨hrest, kept, hs⟩ := ih hrange (Prod.ext rfl (Prod.mk.inj h).2)
        exact ⟨range_cons.mpr ⟨hp, hrest⟩, kept, by simpa using hs⟩
      · have hturn := turn_behind (c := c) buf hp
        rw [if_neg hrange] at hturn
        rw [cut_none hturn] at h
        cases h

/-- Where the depth stays in range, the loop reaches the end of the stream. -/
theorem cut_of_range {p input : Text} (buf : Text)
    (h : ∀ q, q <+: input → InInt (apparentDepth (p ++ q))) :
    ∃ kept, ((FrameState.behind p buf).cut input).2 = some (.behind (p ++ input) kept) := by
  induction input generalizing p buf with
  | nil => exact ⟨buf, by rw [List.append_nil]; rfl⟩
  | cons c input ih =>
      obtain ⟨hp, hrest⟩ := range_cons.mp h
      have hc : InInt (apparentDepth (p ++ [c])) := by simpa using hrest [] List.nil_prefix
      have hturn := turn_behind (c := c) buf hp
      rw [if_pos hc] at hturn
      obtain ⟨kept, hcut⟩ := ih ((if 0 < apparentDepth p then buf else []) ++ [c]) hrest
      refine ⟨kept, ?_⟩
      rw [cut_some hturn, hcut, List.append_assoc, List.singleton_append]

/-- As long as no bracket opens a frame, nothing is cut. -/
theorem cut_closed {p input : Text} (buf : Text) (hp : InInt (apparentDepth p))
    (h : ∀ q, q <+: input → apparentDepth (p ++ q) ≤ 0) :
    ((FrameState.behind p buf).cut input).1 = [] := by
  induction input generalizing p buf with
  | nil => rfl
  | cons c input ih =>
      have hclosed : ¬ 0 < apparentDepth p := by simpa using h [] List.nil_prefix
      have hturn := turn_behind (c := c) buf hp
      by_cases hrange : InInt (apparentDepth (p ++ [c]))
      · have hnone : ¬ (0 < apparentDepth p ∧ apparentDepth (p ++ [c]) = 0) :=
          fun hframe => hclosed hframe.1
        rw [if_pos hrange, if_neg hnone] at hturn
        rw [cut_some hturn]
        refine ih _ hrange fun q hq => ?_
        simpa using h (c :: q) (List.cons_prefix_cons.mpr ⟨rfl, hq⟩)
      · rw [if_neg hrange] at hturn
        rw [cut_none hturn]

/-! ## Stray brackets -/

/-- The opening brackets less the closing ones, but for those between two quotes. `quote` says
whether a quote is open in front of the text. -/
def balanceFrom (quote : Bool) : Text → Int
  | [] => 0
  | c :: text => (if quote then 0 else bracket c) + balanceFrom (quote ^^ (c == ch '"')) text

/-- The opening brackets of a text less its closing ones, but for those between two quotes. -/
def balance (text : Text) : Int := balanceFrom false text

/-- The places of the grammar do not matter for what the loop counts. -/
theorem apparent_eq_balance (m : Mode) (text : Text) :
    m.apparent text = balanceFrom (!m.sees) text := by
  induction text generalizing m with
  | nil => rfl
  | cons c text ih =>
      rw [Mode.apparent, balanceFrom, ih, Mode.sees_next]
      cases m.sees <;> simp

theorem apparent_depth_eq_balance (text : Text) : apparentDepth text = balance text :=
  apparent_eq_balance .start text

/-- In every beginning of a stream that the loop comes through, no more brackets are closed than
opened. -/
def NoStrayBracket (input : Text) : Prop :=
  ∀ p, p <+: input → (∀ q, q <+: p → balance q < 2 ^ 31) → 0 ≤ balance p

/-- Behind every byte the depth is not negative, and zero where no frame is open. -/
def FramedThroughout (input : Text) : Prop :=
  ∀ p s fs, p <+: input → frames p = .finished s fs → 0 ≤ s.depth ∧ (s.found = false → s.depth = 0)

/-- The variables behind the bytes that the loop comes through. -/
theorem frames_behind {p : Text} {s : FrameState} {fs : List Text}
    (h : frames p = .finished s fs) :
    (∀ q, q <+: p → InInt (apparentDepth q)) ∧ ∃ kept, s = .behind p kept := by
  rw [frames_eq_iff, ← behind_nil] at h
  exact behind_of_cut (by decide) h

/-- The loop comes through all bytes where the depth stays in range. -/
theorem frames_of_range {p : Text} (h : ∀ q, q <+: p → InInt (apparentDepth q)) :
    ∃ fs kept, frames p = .finished (.behind p kept) fs := by
  obtain ⟨kept, hcut⟩ := cut_of_range (p := []) [] h
  exact ⟨_, kept, frames_eq_iff.mpr (Prod.ext rfl hcut)⟩

/-- The depth says whether a frame is open exactly where no bracket is closed that is not open. -/
theorem framed_throughout_iff (input : Text) : FramedThroughout input ↔ NoStrayBracket input := by
  simp only [NoStrayBracket, ← apparent_depth_eq_balance]
  constructor
  · intro h p hp hbound
    have hnonneg : ∀ q, q <+: p → 0 ≤ apparentDepth q := by
      induction p using List.reverseRecOn with
      | nil =>
          intro q hq
          rw [List.prefix_nil.mp hq]
          exact Int.le_refl _
      | append_singleton p c ih =>
          have hshorter : p <+: p ++ [c] := List.prefix_append p [c]
          have hbefore := ih (hshorter.trans hp) fun q hq => hbound q (hq.trans hshorter)
          -- one byte takes the depth down by one at most, so that the loop comes here
          have hstep := (apparent_depth_step p c).1
          have hlast := hbefore p (List.prefix_refl p)
          have hrange : ∀ q, q <+: p ++ [c] → InInt (apparentDepth q) := by
            intro q hq
            refine ⟨?_, hbound q hq⟩
            rcases List.prefix_concat_iff.mp hq with rfl | hq
            · omega
            · have hq := hbefore q hq
              omega
          obtain ⟨fs, kept, hframes⟩ := frames_of_range hrange
          have hdepth : 0 ≤ apparentDepth (p ++ [c]) := (h _ _ _ hp hframes).1
          intro q hq
          rcases List.prefix_concat_iff.mp hq with rfl | hq
          · exact hdepth
          · exact hbefore q hq
    exact hnonneg p (List.prefix_refl p)
  · intro h p s fs hp hframes
    obtain ⟨hrange, kept, rfl⟩ := frames_behind hframes
    have hnonneg : 0 ≤ apparentDepth p := h p hp fun q hq => (hrange q hq).2
    refine ⟨hnonneg, fun hfound => ?_⟩
    have hclosed : ¬ 0 < apparentDepth p := of_decide_eq_false hfound
    show apparentDepth p = 0
    omega

/-! ## A text behind other bytes -/

/-- JSON without escapes in its strings. -/
def unescaped : Lexis where
  number := RfcNumber
  chars text := ch '"' ∉ text ∧ ch '\\' ∉ text
  space := rfc8259.space

theorem level_blank {space : Text} (h : unescaped.Blank space) : Level .start 0 space :=
  level_spaces (relaxed_extends.blank h)

/-- A JSON number has no bracket and no quote. -/
theorem rfc_number_quiet {text : Text} (h : RfcNumber text) : ∀ c ∈ text, isQuiet c = true := by
  have numerals_quiet : ∀ b : Byte, numeralByte b = true → isQuiet b = true :=
    forall_byte (by decide +kernel)
  have digits_quiet : ∀ digits : Text, Digits digits → ∀ c ∈ digits, isQuiet c = true := by
    intro digits hdigits c hc
    exact numerals_quiet c (by simp [numeralByte, hdigits c hc])
  have sign_quiet : ∀ sgn : Text, sgn = [] ∨ sgn = [ch '-'] ∨ sgn = [ch '+'] →
      ∀ c ∈ sgn, isQuiet c = true := by
    rintro _ (rfl | rfl | rfl)
    · exact List.forall_mem_nil _
    · exact List.all_eq_true.mp rfl
    · exact List.all_eq_true.mp rfl
  obtain ⟨sgn, int, frac, exp, hsgn, hint, hfrac, hexp⟩ := h
  have hfrac_quiet : ∀ c ∈ frac, isQuiet c = true := by
    cases hfrac with
    | none => exact List.forall_mem_nil _
    | some digits hdigits _ =>
        exact List.forall_mem_cons.mpr ⟨by decide, digits_quiet digits hdigits⟩
  have hexp_quiet : ∀ c ∈ exp, isQuiet c = true := by
    cases hexp with
    | none => exact List.forall_mem_nil _
    | some e sgn digits he hsgn hdigits _ =>
        have hletter : isQuiet e = true := by
          rcases he with rfl | rfl
          · decide
          · decide
        exact List.forall_mem_cons.mpr ⟨hletter, List.forall_mem_append.mpr
          ⟨sign_quiet sgn hsgn, digits_quiet digits hdigits⟩⟩
  exact List.forall_mem_append.mpr ⟨sign_quiet sgn (hsgn.imp_right .inl), List.forall_mem_append.mpr
    ⟨digits_quiet int hint.digits_ne.1, List.forall_mem_append.mpr ⟨hfrac_quiet, hexp_quiet⟩⟩⟩

/-- A string without escapes. -/
theorem level_unescaped {text : Text} (h : unescaped.chars text) : Level .start 0 (quoted text) :=
  level_quoted (level_string h.1 fun hlast => h.2 (List.mem_of_getLast? hlast))

mutual
/-- A text without escapes has a level. -/
theorem unescaped_level {text : Text} : JsonText unescaped text → ∃ n, Level .start n text
  | .null => ⟨0, level_quiet (List.all_eq_true.mp rfl)⟩
  | .bool true => ⟨0, level_quiet (List.all_eq_true.mp rfl)⟩
  | .bool false => ⟨0, level_quiet (List.all_eq_true.mp rfl)⟩
  | .number _ hn => ⟨0, level_quiet (rfc_number_quiet hn)⟩
  | .string _ hc => ⟨0, level_unescaped hc⟩
  | .emptyObject _ hs => ⟨1, level_bracket (level_blank hs) rfl rfl⟩
  | .object _ hbody => by
      obtain ⟨n, hn⟩ := members_level hbody
      exact ⟨n + 1, level_bracket hn rfl rfl⟩
  | .emptyArray _ hs => ⟨1, level_bracket (level_blank hs) rfl rfl⟩
  | .array _ hbody => by
      obtain ⟨n, hn⟩ := elements_level hbody
      exact ⟨n + 1, level_bracket hn rfl rfl⟩

theorem members_level {body : Text} : MembersText unescaped body → ∃ n, Level .start n body
  | .last _ _ _ _ _ _ h1 hk h2 h3 ht h4 => by
      obtain ⟨n, hn⟩ := unescaped_level ht
      have hvalue := (level_blank h3).append
        (hn.append (level_blank h4))
      have hmember := level_separated colon_quiet (level_blank h2) hvalue
      exact ⟨_, (level_blank h1).append ((level_unescaped hk).append hmember)⟩
  | .cons _ _ _ _ _ _ _ h1 hk h2 h3 ht h4 hbody => by
      obtain ⟨n, hn⟩ := unescaped_level ht
      obtain ⟨k, hk'⟩ := members_level hbody
      have hvalue := (level_blank h3).append
        (hn.append (level_separated comma_quiet (level_blank h4) hk'))
      have hmember := level_separated colon_quiet (level_blank h2) hvalue
      exact ⟨_, (level_blank h1).append ((level_unescaped hk).append hmember)⟩

theorem elements_level {body : Text} : ElementsText unescaped body → ∃ n, Level .start n body
  | .last _ _ _ h1 ht h2 => by
      obtain ⟨n, hn⟩ := unescaped_level ht
      exact ⟨_, (level_blank h1).append
        (hn.append (level_blank h2))⟩
  | .cons _ _ _ _ h1 ht h2 hbody => by
      obtain ⟨n, hn⟩ := unescaped_level ht
      obtain ⟨k, hk⟩ := elements_level hbody
      exact ⟨_, (level_blank h1).append
        (hn.append (level_separated comma_quiet (level_blank h2) hk))⟩
end

/-- An object or array without escapes is a text between brackets. -/
theorem unescaped_enclosed {text : Text} (h : JsonText unescaped text) (hopen : Opens text) :
    ∃ n, Enclosed n text := by
  obtain ⟨c, tail, hsplit, hc⟩ := hopen
  cases h with
  | null =>
      obtain rfl := (List.cons.inj hsplit).1
      exact absurd hc (by decide)
  | bool b =>
      cases b with
      | false =>
          obtain rfl := (List.cons.inj hsplit).1
          exact absurd hc (by decide)
      | true =>
          obtain rfl := (List.cons.inj hsplit).1
          exact absurd hc (by decide)
  | number _ hn =>
      have hquiet := rfc_number_quiet hn c (hsplit ▸ List.mem_cons_self)
      simp [isQuiet, hc] at hquiet
  | string text hchars =>
      obtain rfl := (List.cons.inj hsplit).1
      exact absurd hc (by decide)
  | emptyObject space hs => exact ⟨0, ch '{', space, ch '}', rfl, rfl, rfl, level_blank hs⟩
  | object body hbody =>
      obtain ⟨n, hn⟩ := members_level hbody
      exact ⟨n, ch '{', body, ch '}', rfl, rfl, rfl, hn⟩
  | emptyArray space hs => exact ⟨0, ch '[', space, ch ']', rfl, rfl, rfl, level_blank hs⟩
  | array body hbody =>
      obtain ⟨n, hn⟩ := elements_level hbody
      exact ⟨n, ch '[', body, ch ']', rfl, rfl, rfl, hn⟩

/-- A text between brackets is seen right where the depth stays below the range of `int`. -/
theorem apparent_iff_range {n : Nat} {text : Text} (h : Enclosed n text) :
    Apparent text ↔ ∀ p, p <+: text → apparentDepth p < 2 ^ 31 := by
  constructor
  · intro happ p hp
    by_cases hnil : p = []
    · rw [hnil]
      decide
    by_cases hall : p = text
    · rw [hall, happ.closed]
      decide
    · exact (happ.inside p hp hnil hall).2
  · intro hrange
    obtain ⟨c, body, d, rfl, hc, hd, hlevel⟩ := h
    refine ⟨fun p hp hne hproper => ⟨?_, hrange p hp⟩, (level_bracket hlevel hc hd).closed⟩
    exact (Enclosed.positive ⟨c, body, d, rfl, hc, hd, hlevel⟩ p hp hne hproper).1

/-- Bytes without opening brackets and quotes. -/
def Junk (g : Text) : Prop := ∀ c ∈ g, bracket c ≠ 1 ∧ c ≠ ch '"'

theorem junk_iff (g : Text) : Junk g ↔ g.all (fun c => bracket c != 1 && c != ch '"') = true := by
  simp [Junk]

theorem Junk.of_prefix {g p : Text} (h : Junk g) (hp : p <+: g) : Junk p :=
  fun c hc => h c (hp.subset hc)

/-- Junk opens no quote, and takes the depth down where it closes a bracket. -/
theorem Junk.depth {g : Text} (h : Junk g) : Mode.start.after g = .start ∧ apparentDepth g ≤ 0 ∧
    (apparentDepth g = 0 → ∀ c ∈ g, bracket c = 0) := by
  induction g with
  | nil => exact ⟨rfl, Int.le_refl _, fun _ => List.forall_mem_nil _⟩
  | cons c g ih =>
      obtain ⟨hbracket, hquote⟩ := h c List.mem_cons_self
      obtain ⟨hafter, hdepth, hzero⟩ := ih fun d hd => h d (List.mem_cons_of_mem c hd)
      have hnext : Mode.start.next c = .start := by simp [Mode.start, Mode.next, Place.next, hquote]
      have hcons : apparentDepth (c :: g) = bracket c + apparentDepth g := by
        rw [apparentDepth, apparent_cons, hnext, apparentDepth]
        rfl
      have hrange := bracket_range c
      refine ⟨by rw [Mode.after_cons, hnext, hafter], by omega, fun hsum => ?_⟩
      exact List.forall_mem_cons.mpr ⟨by omega, hzero (by omega)⟩

/-- Behind a bracket that closes nothing, a text is not delivered. -/
theorem undelivered {g text : Text} (hg : Junk g) (hopen : Opens text)
    (hstray : ¬ ∀ c ∈ g, bracket c = 0) {s : FrameState} {fs : List Text}
    (h : frames (g ++ text) = .finished s fs) : text ∉ fs := by
  obtain ⟨c, tail, rfl, hc⟩ := hopen
  obtain ⟨hafter, hdepth, hzero⟩ := hg.depth
  have hnegative : apparentDepth g ≠ 0 := fun h => hstray (hzero h)
  have hfirst : apparentDepth (g ++ [c]) = apparentDepth g + 1 := by
    have hsees : Mode.start.sees = true := rfl
    rw [apparent_depth_snoc, hafter, hsees, if_pos rfl, hc]
  -- the bracket that opens the text brings the depth to zero at most
  have hclosed : ∀ q, q <+: g ++ [c] → apparentDepth q ≤ 0 := by
    intro q hq
    rcases List.prefix_concat_iff.mp hq with rfl | hq
    · omega
    · exact (hg.of_prefix hq).depth.2.1
  have hrange := (frames_behind h).1
  have hprefix : g ++ [c] <+: g ++ c :: tail := by simp
  obtain ⟨kept, hcut⟩ := cut_of_range (p := []) [] fun q hq => hrange q (hq.trans hprefix)
  have hnone := cut_closed (p := []) [] (by decide) hclosed
  have hparts := cut_append (Prod.ext hnone hcut) tail
  rw [frames_eq_iff, ← behind_nil, show g ++ c :: tail = g ++ [c] ++ tail by simp, hparts] at h
  intro hmem
  rw [← (Prod.mk.inj h).1, List.nil_append] at hmem
  have hlength := cut_length _ tail _ hmem
  have hempty : (FrameState.behind ([] ++ (g ++ [c])) kept).buf = [] :=
    if_neg (by rw [List.nil_append]; have := hclosed _ (List.prefix_refl _); omega)
  rw [hempty] at hlength
  simp at hlength

/-- Behind other bytes an object or array is delivered exactly where they close no bracket and the
depth in the text stays in range. -/
theorem delivered_behind_iff {g text : Text} (hg : Junk g) (htext : JsonText unescaped text)
    (hopen : Opens text) :
    (∃ s fs, frames (g ++ text) = .finished s fs ∧ text ∈ fs) ↔
      (∀ c ∈ g, bracket c = 0) ∧ ∀ p, p <+: text → balance p < 2 ^ 31 := by
  obtain ⟨n, henclosed⟩ := unescaped_enclosed htext hopen
  simp only [← apparent_depth_eq_balance, ← apparent_iff_range henclosed]
  constructor
  · rintro ⟨s, fs, hframes, hmem⟩
    have hquiet : ∀ c ∈ g, bracket c = 0 := by
      by_contra hstray
      exact undelivered hg hopen hstray hframes hmem
    refine ⟨hquiet, (enclosed_apparent_iff henclosed).mpr ?_⟩
    by_contra hdeep
    rw [frames, read_loop_quiet fun c hc => ⟨hquiet c hc, (hg c hc).2⟩, ← List.append_nil text,
      read_loop_overflow henclosed hdeep] at hframes
    cases hframes
  · rintro ⟨hquiet, happ⟩
    refine ⟨.initial, [text], ?_, List.mem_singleton_self _⟩
    have hloop : ∀ seen : List Text, readLoop (fun frame seen => (seen ++ [frame], .returned))
        .initial seen (text ++ []) = .finished .initial (seen ++ [text]) :=
      fun seen => read_loop_frame hopen happ []
    rw [List.append_nil] at hloop
    rw [frames, read_loop_quiet fun c hc => ⟨hquiet c hc, (hg c hc).2⟩, hloop]
    rfl

/-- For every stream, the depth is not negative at any point of the loop and zero where no frame is
open, exactly where no beginning of the stream closes more brackets than it opens. Behind bytes
without opening brackets and quotes an object or array is delivered exactly where they close none,
and the depth in it stays in range. -/
theorem between_messages_iff (input : Text) :
    (FramedThroughout input ↔ NoStrayBracket input) ∧
      ∀ g text, Junk g → JsonText unescaped text → Opens text →
        ((∃ s fs, frames (g ++ text) = .finished s fs ∧ text ∈ fs) ↔
          (∀ c ∈ g, bracket c = 0) ∧ ∀ p, p <+: text → balance p < 2 ^ 31) :=
  ⟨framed_throughout_iff input, fun _ _ => delivered_behind_iff⟩

theorem between_messages_comma :
    (∃ s fs, frames (str ", {}") = .finished s fs ∧ str "{}" ∈ fs) ↔
      (∀ c ∈ str ", ", bracket c = 0) ∧ ∀ p, p <+: str "{}" → balance p < 2 ^ 31 :=
  (between_messages_iff (str ", {}")).2 (str ", ") (str "{}") ((junk_iff _).mpr rfl)
    (.emptyObject [] (List.forall_mem_nil _)) ⟨ch '{', [ch '}'], rfl, rfl⟩

/-- A closing bracket in front of a message makes the depth negative, and the message is lost. -/
theorem stray_bracket :
    ¬ FramedThroughout (str "\x7d\x7b\x7d") ∧ Junk (str "\x7d") ∧ JsonText unescaped (str "{}") ∧
      frames (str "\x7d" ++ str "{}") = .finished ⟨-1, false, false, []⟩ [] := by
  refine ⟨fun h => ?_, (junk_iff _).mpr rfl, .emptyObject [] (List.forall_mem_nil _), by decide⟩
  have hdepth := h (str "\x7d") ⟨-1, false, false, []⟩ [] ⟨str "{}", rfl⟩ (by decide)
  exact absurd hdepth.1 (by decide)

end BoostRpc.Json
