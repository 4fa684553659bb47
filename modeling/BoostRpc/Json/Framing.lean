import BoostRpc.Json.Grammar
import Mathlib.Tactic.Ring

/-!
# Framing

`tcp::connection::read_loop` cuts a stream of bytes into JSON texts: it counts brackets and skips
what stands between two quotes, without a look at the backslashes of `unesc_str`. `apparentDepth`
says which depth the loop sees in a text, in terms of the places where the grammar sees strings
and escaped quotes, and `cuts_exactly_iff` says for which texts of the grammar the loop cuts
exactly the text.

The depth is an `int`: a loop that counts past its range has no defined result.
-/

namespace BoostRpc.Json

open Peg

/-! ## The loop -/

/-- What a byte outside quotes adds to the depth. -/
def bracket (c : Byte) : Int :=
  if c = ch '{' then 1
  else if c = ch '[' then 1
  else if c = ch '}' then -1
  else if c = ch ']' then -1
  else 0

/-- The local variables of `read_loop` that find the frames. -/
structure FrameState where
  /-- `int depth` -/
  depth : Int
  /-- `int quote` -/
  quote : Bool
  /-- `bool found` -/
  found : Bool
  /-- `std::string buf` -/
  buf : Text
  deriving DecidableEq

/-- The variables at the start of the loop. -/
def FrameState.initial : FrameState := ⟨0, false, false, []⟩

/-- The tests on the byte at the head of the loop body. -/
def FrameState.scan (s : FrameState) (c : Byte) : Option FrameState :=
  if s.quote then some { s with quote := c != ch '"' }
  else if InInt (s.depth + bracket c) then
    some { s with
      depth := s.depth + bracket c
      quote := c == ch '"'
      found := s.found || decide (0 < s.depth + bracket c) }
  else none

/-- One turn of the loop: the variables behind it, and the frame that ends with the byte. -/
def FrameState.turn (s : FrameState) (c : Byte) : Option (FrameState × Option Text) := do
  let s ← s.scan c
  let s := if s.found then { s with buf := s.buf ++ [c] } else s
  if s.found ∧ s.depth = 0 then some ({ s with found := false, buf := [] }, some s.buf)
  else some (s, none)

/-- How the treatment of a frame ends. -/
inductive Treated where
  | returned
  | threw (e : Exception)
  /-- It never returns. -/
  | diverged
  /-- It has no defined result. -/
  | undefined
  deriving DecidableEq

/-- How the loop ends. -/
inductive LoopEnd (σ : Type) where
  /-- The stream ended. -/
  | finished (framing : FrameState) (state : σ)
  /-- The treatment of a frame threw, which ends the loop. -/
  | threw (state : σ) (e : Exception)
  /-- The treatment of a frame never returns. -/
  | diverged (state : σ)
  /-- The depth left the range of `int`, or the treatment of a frame has no defined result. -/
  | undefined
  deriving DecidableEq

/-- The loop over the bytes of a stream. `deliver` is what the loop does with a frame. -/
def readLoop {σ : Type} (deliver : Text → σ → σ × Treated) :
    FrameState → σ → Text → LoopEnd σ
  | s, st, [] => .finished s st
  | s, st, c :: input =>
      match s.turn c with
      | none => .undefined
      | some (s, none) => readLoop deliver s st input
      | some (s, some frame) =>
          match deliver frame st with
          | (st, .returned) => readLoop deliver s st input
          | (st, .threw e) => .threw st e
          | (st, .diverged) => .diverged st
          | (_, .undefined) => .undefined

/-- The frames that the loop cuts a stream into, from its initial state. -/
def frames (input : Text) : LoopEnd (List Text) :=
  readLoop (fun frame seen => (seen ++ [frame], .returned)) .initial [] input

/-! ## What the loop sees -/

/-- Where a byte stands in a text, as `unesc_str` divides it. -/
inductive Place where
  | outside
  | inString
  /-- In a string, behind a backslash that is not escaped. -/
  | escape
  deriving DecidableEq

/-- The place is between the quotes of a string. -/
def Place.quoted : Place → Bool
  | .outside => false
  | _ => true

/-- The place of the next byte. -/
def Place.next : Place → Byte → Place
  | .outside, c => if c = ch '"' then .inString else .outside
  | .inString, c =>
      if c = ch '"' then .outside else if c = ch '\\' then .escape else .inString
  | .escape, _ => .inString

/-- The place of a byte, and whether the number of escaped quotes in front of it is odd. -/
structure Mode where
  place : Place
  odd : Bool
  deriving DecidableEq

/-- The mode at the start of a text. -/
def Mode.start : Mode := ⟨.outside, false⟩

/-- The mode of the next byte. -/
def Mode.next (m : Mode) (c : Byte) : Mode where
  place := m.place.next c
  odd := if m.place = .escape ∧ c = ch '"' then !m.odd else m.odd

/-- The mode behind a text. -/
def Mode.after : Mode → Text → Mode := List.foldl Mode.next

/-- A bracket outside strings is seen behind an even number of escaped quotes, a bracket in a
string behind an odd number. -/
def Mode.sees (m : Mode) : Bool := m.place.quoted == m.odd

/-- The brackets seen in a text: the opening ones less the closing ones. -/
def Mode.apparent : Mode → Text → Int
  | _, [] => 0
  | m, c :: text => (if m.sees then bracket c else 0) + Mode.apparent (m.next c) text

/-- The depth that the loop sees behind a text. -/
def apparentDepth (text : Text) : Int := Mode.start.apparent text

/-- The depth that the loop sees is positive and in range inside of the text and zero behind it. -/
structure Apparent (text : Text) : Prop where
  /-- Nothing closes the first bracket before the last byte. -/
  inside : ∀ p, p <+: text → p ≠ [] → p ≠ text → 0 < apparentDepth p ∧ apparentDepth p < 2 ^ 31
  /-- The last byte closes it. -/
  closed : apparentDepth text = 0

theorem Apparent.of_prefix {text p : Text} (h : Apparent text) (hp : p <+: text)
    (hproper : p ≠ text) :
    ∀ q, q <+: p → q ≠ [] → 0 < apparentDepth q ∧ apparentDepth q < 2 ^ 31 := by
  intro q hq hne
  refine h.inside q (hq.trans hp) hne ?_
  rintro rfl
  exact hproper (hp.eq_of_length_le hq.length_le)

@[simp] theorem Mode.after_nil (m : Mode) : m.after [] = m := rfl

@[simp] theorem Mode.after_cons (m : Mode) (c : Byte) (text : Text) :
    m.after (c :: text) = (m.next c).after text := rfl

theorem Mode.after_append (m : Mode) (first second : Text) :
    m.after (first ++ second) = (m.after first).after second := List.foldl_append

theorem Mode.apparent_append (m : Mode) (first second : Text) :
    m.apparent (first ++ second) = m.apparent first + (m.after first).apparent second := by
  induction first generalizing m with
  | nil => simp [Mode.apparent]
  | cons c first ih =>
      simp only [List.cons_append, Mode.apparent, ih, Mode.after_cons]
      ring

/-- A byte that is no quote neither opens nor closes a string. -/
theorem Place.quoted_next (p : Place) {c : Byte} (hc : c ≠ ch '"') :
    (p.next c).quoted = p.quoted := by
  cases p with
  | outside => simp only [Place.next, if_neg hc]
  | inString =>
      simp only [Place.next, if_neg hc]
      split <;> rfl
  | escape => rfl

/-- Every quote, escaped or not, changes what the loop sees. -/
theorem Mode.sees_next (m : Mode) (c : Byte) : (m.next c).sees = (m.sees ^^ (c == ch '"')) := by
  by_cases hquote : c = ch '"'
  · obtain ⟨place, odd⟩ := m
    cases place <;> cases odd <;> simp [Mode.sees, Mode.next, Place.next, Place.quoted, hquote]
  · have hfalse : (c == ch '"') = false := by simp [hquote]
    have hodd : (m.next c).odd = m.odd := if_neg fun h => hquote h.2
    rw [hfalse, Bool.xor_false]
    show ((m.place.next c).quoted == (m.next c).odd) = (m.place.quoted == m.odd)
    rw [Place.quoted_next m.place hquote, hodd]

/-! ## The state inside of a frame -/

/-- The state behind the text `p` of a frame that has not ended, computed from `p` alone. -/
def FrameState.inside (p : Text) : FrameState :=
  ⟨apparentDepth p, !(Mode.start.after p).sees, true, p⟩

theorem bracket_range (c : Byte) : -1 ≤ bracket c ∧ bracket c ≤ 1 := by
  unfold bracket
  split_ifs <;> decide

/-- A bracket is no quote. -/
theorem bracket_quote : bracket (ch '"') = 0 := rfl

theorem apparent_depth_snoc (p : Text) (c : Byte) :
    apparentDepth (p ++ [c]) =
      apparentDepth p + if (Mode.start.after p).sees then bracket c else 0 := by
  simp [apparentDepth, Mode.apparent_append, Mode.apparent]

theorem after_snoc (p : Text) (c : Byte) :
    Mode.start.after (p ++ [c]) = (Mode.start.after p).next c := by
  simp [Mode.after_append]

/-- A byte changes the apparent depth by one at most. -/
theorem apparent_depth_step (p : Text) (c : Byte) :
    apparentDepth p - 1 ≤ apparentDepth (p ++ [c]) ∧
      apparentDepth (p ++ [c]) ≤ apparentDepth p + 1 := by
  rw [apparent_depth_snoc]
  have hrange := bracket_range c
  split <;> omega

/-- The tests on the byte take the state of the bytes in front of it to that of the bytes with
it, the buffer aside. -/
theorem scan_inside {p : Text} {c : Byte} (hp : 0 < apparentDepth p ∧ apparentDepth p < 2 ^ 31) :
    (FrameState.inside p).scan c =
      if apparentDepth (p ++ [c]) < 2 ^ 31 then
        some { FrameState.inside (p ++ [c]) with buf := p }
      else none := by
  have hsees := Mode.sees_next (Mode.start.after p) c
  have hrange := bracket_range c
  cases h : (Mode.start.after p).sees with
  | false =>
      have hdepth : apparentDepth (p ++ [c]) = apparentDepth p := by
        simp [apparent_depth_snoc, h]
      have hquote : (c != ch '"') = !((Mode.start.after p).next c).sees := by
        rw [hsees, h, Bool.false_xor, bne]
      simp only [FrameState.scan, FrameState.inside, h, Bool.not_false, if_true, hdepth,
        after_snoc, if_pos hp.2, hquote]
  | true =>
      have hdepth : apparentDepth (p ++ [c]) = apparentDepth p + bracket c := by
        simp [apparent_depth_snoc, h]
      have hint : InInt (apparentDepth p + bracket c) ↔ apparentDepth p + bracket c < 2 ^ 31 :=
        ⟨fun hin => hin.2, fun hlt => ⟨by omega, hlt⟩⟩
      have hquote : (c == ch '"') = !((Mode.start.after p).next c).sees := by
        rw [hsees, h, Bool.true_xor, Bool.not_not]
      simp only [FrameState.scan, FrameState.inside, h, Bool.not_true, Bool.false_eq_true, if_false,
        hdepth, after_snoc, hint, hquote, Bool.true_or]

/-- A turn inside of a frame goes on with the frame, ends it where the depth comes down to zero,
or leaves the range of the depth. -/
theorem turn_inside {p : Text} {c : Byte} (hp : 0 < apparentDepth p ∧ apparentDepth p < 2 ^ 31) :
    (FrameState.inside p).turn c =
      if apparentDepth (p ++ [c]) = 0 then some (.initial, some (p ++ [c]))
      else if apparentDepth (p ++ [c]) < 2 ^ 31 then some (.inside (p ++ [c]), none)
      else none := by
  by_cases hzero : apparentDepth (p ++ [c]) = 0
  · -- the byte is a bracket that the loop sees, so no quote is open behind it
    have hsees : (Mode.start.after p).sees = true := by
      by_contra hunseen
      rw [apparent_depth_snoc, if_neg hunseen] at hzero
      omega
    have hquote : c ≠ ch '"' := by
      rintro rfl
      rw [apparent_depth_snoc, if_pos hsees, bracket_quote] at hzero
      omega
    have hclosed : (Mode.start.after (p ++ [c])).sees = true := by
      rw [after_snoc, Mode.sees_next, hsees]
      simp [hquote]
    simp only [FrameState.turn, scan_inside hp, hzero]
    simp [FrameState.inside, FrameState.initial, hzero, hclosed]
  · by_cases hrange : apparentDepth (p ++ [c]) < 2 ^ 31
    · simp only [FrameState.turn, scan_inside hp, if_pos hrange, if_neg hzero]
      simp [FrameState.inside, hzero]
    · simp only [FrameState.turn, scan_inside hp, if_neg hrange, if_neg hzero]
      rfl

/-! ## The loop over a frame -/

theorem apparent_depth_open {c : Byte} (hc : bracket c = 1) : apparentDepth [c] = 1 := by
  have hstart : Mode.start.sees = true := rfl
  simp [apparentDepth, Mode.apparent, hstart, hc]

/-- An opening bracket begins a frame. -/
theorem turn_open {c : Byte} (hc : bracket c = 1) :
    FrameState.initial.turn c = some (.inside [c], none) := by
  have hquote : c ≠ ch '"' := by
    rintro rfl
    exact absurd hc (by decide)
  have hint : InInt 1 := by decide
  have hstart : Mode.start.sees = true := rfl
  simp [FrameState.turn, FrameState.scan, FrameState.initial, FrameState.inside, hc, hint,
    apparent_depth_open hc, Mode.sees_next, hstart]

/-- Between frames a byte that is neither a bracket nor a quote is skipped. -/
theorem turn_quiet {c : Byte} (hbracket : bracket c = 0) (hquote : c ≠ ch '"') :
    FrameState.initial.turn c = some (.initial, none) := by
  have hint : InInt 0 := by decide
  simp [FrameState.turn, FrameState.scan, FrameState.initial, hbracket, hint, hquote]

section Runs

variable {σ : Type} {deliver : Text → σ → σ × Treated} {st : σ}

theorem read_loop_quiet {junk : Text} (h : ∀ c ∈ junk, bracket c = 0 ∧ c ≠ ch '"') (rest : Text) :
    readLoop deliver .initial st (junk ++ rest) = readLoop deliver .initial st rest := by
  induction junk with
  | nil => rfl
  | cons c junk ih =>
      obtain ⟨hbracket, hquote⟩ := h c List.mem_cons_self
      rw [List.cons_append, readLoop, turn_quiet hbracket hquote]
      exact ih fun d hd => h d (List.mem_cons_of_mem c hd)

theorem read_loop_spaces {space : Text} (hs : ∀ c ∈ space, isSpace c = true) (rest : Text) :
    readLoop deliver .initial st (space ++ rest) = readLoop deliver .initial st rest := by
  have spaces_plain : ∀ b : Byte, isSpace b = true → bracket b = 0 ∧ b ≠ ch '"' :=
    forall_byte (by decide +kernel)
  exact read_loop_quiet (fun c hc => spaces_plain c (hs c hc)) rest

/-- The first byte of the text opens a bracket. -/
def Opens (text : Text) : Prop := ∃ c tail, text = c :: tail ∧ bracket c = 1

/-- As long as the depth that the loop sees is positive and in range, the loop goes on with the
frame. -/
theorem read_loop_inside {p : Text} (hopen : Opens p)
    (hdepth : ∀ q, q <+: p → q ≠ [] → 0 < apparentDepth q ∧ apparentDepth q < 2 ^ 31)
    (rest : Text) :
    readLoop deliver .initial st (p ++ rest) = readLoop deliver (.inside p) st rest := by
  obtain ⟨c, tail, rfl, hc⟩ := hopen
  induction tail using List.reverseRecOn generalizing rest with
  | nil =>
      rw [List.singleton_append, readLoop, turn_open hc]
  | append_singleton tail d ih =>
      have hshorter : ∀ q, q <+: c :: tail → q ≠ [] →
          0 < apparentDepth q ∧ apparentDepth q < 2 ^ 31 := fun q hq =>
        hdepth q (hq.trans (List.prefix_append (c :: tail) [d]))
      have hbefore := hshorter (c :: tail) (List.prefix_refl _) (by simp)
      have hbehind : 0 < apparentDepth (c :: tail ++ [d]) ∧
          apparentDepth (c :: tail ++ [d]) < 2 ^ 31 := hdepth _ (List.prefix_refl _) (by simp)
      have hsplit : c :: (tail ++ [d]) ++ rest = c :: tail ++ d :: rest := by simp
      rw [hsplit, ih _ hshorter, readLoop, turn_inside hbefore, if_neg (by omega),
        if_pos hbehind.2]
      rfl

/-- A text that the loop sees right is delivered as a whole, with the loop back in its initial
state. -/
theorem read_loop_frame {text : Text} (hopen : Opens text) (happ : Apparent text) (rest : Text) :
    readLoop deliver .initial st (text ++ rest) =
      match deliver text st with
      | (st, .returned) => readLoop deliver .initial st rest
      | (st, .threw e) => .threw st e
      | (st, .diverged) => .diverged st
      | (_, .undefined) => .undefined := by
  obtain ⟨c, tail, rfl, hc⟩ := hopen
  cases tail using List.reverseRecOn with
  | nil => exact absurd happ.closed (by rw [apparent_depth_open hc]; decide)
  | append_singleton tail d =>
      have hinside := happ.of_prefix (List.prefix_append (c :: tail) [d]) (by simp)
      have hbefore := hinside (c :: tail) (List.prefix_refl _) (by simp)
      have hclosed : apparentDepth (c :: tail ++ [d]) = 0 := happ.closed
      have hsplit : c :: (tail ++ [d]) ++ rest = c :: tail ++ d :: rest := by simp
      rw [hsplit, read_loop_inside ⟨c, tail, rfl, hc⟩ hinside, readLoop, turn_inside hbefore,
        if_pos hclosed]
      rfl

end Runs

/-! ## Which texts of the grammar the loop cuts -/

/-- One of the rules `object_r` and `array_r` takes the whole text, which begins with the bracket
of the rule. -/
def Derived [Platform] (text : Text) : Prop :=
  Opens text ∧ ((∃ keys, objectR jsonR text = some (keys, [])) ∨
    ∃ vals, arrayR jsonR text = some (vals, []))

/-- From its initial state the loop cuts the frame `text` behind `space`, at its last byte and
not earlier, and is back in its initial state. -/
def CutsExactly (space text : Text) : Prop :=
  frames (space ++ text) = .finished .initial [text] ∧
    ∀ p, p <+: text → p ≠ text → ∃ s, frames (space ++ p) = .finished s []

/-- One byte behind a text whose depth is positive and in range. -/
theorem frames_snoc {space p : Text} {c : Byte} (hs : ∀ c ∈ space, isSpace c = true)
    (hopen : Opens p)
    (hdepth : ∀ q, q <+: p → q ≠ [] → 0 < apparentDepth q ∧ apparentDepth q < 2 ^ 31) :
    frames (space ++ (p ++ [c])) =
      if apparentDepth (p ++ [c]) = 0 then .finished .initial [p ++ [c]]
      else if apparentDepth (p ++ [c]) < 2 ^ 31 then .finished (.inside (p ++ [c])) []
      else .undefined := by
  have hne : p ≠ [] := by
    rintro rfl
    obtain ⟨d, tail, hnil, -⟩ := hopen
    exact absurd hnil (by simp)
  have hlast := hdepth p (List.prefix_refl _) hne
  rw [frames, read_loop_spaces hs, read_loop_inside hopen hdepth, readLoop, turn_inside hlast]
  split_ifs <;> rfl

theorem Opens.of_prefix {p text : Text} (h : Opens text) (hp : p <+: text) (hne : p ≠ []) :
    Opens p := by
  obtain ⟨c, tail, rfl, hc⟩ := h
  obtain ⟨d, rest, rfl⟩ := List.exists_cons_of_ne_nil hne
  obtain ⟨rfl, -⟩ := List.cons_prefix_cons.mp hp
  exact ⟨d, rest, rfl, hc⟩

/-- As long as the loop cuts nothing, the depth that it sees is positive and in range. -/
theorem inside_of_uncut {space text : Text} (hs : ∀ c ∈ space, isSpace c = true)
    (hopen : Opens text)
    (huncut : ∀ p, p <+: text → p ≠ text → ∃ s, frames (space ++ p) = .finished s []) (p : Text)
    (hp : p <+: text) (hproper : p ≠ text) :
    ∀ q, q <+: p → q ≠ [] → 0 < apparentDepth q ∧ apparentDepth q < 2 ^ 31 := by
  induction p using List.reverseRecOn with
  | nil => exact fun q hq hne => absurd (List.prefix_nil.mp hq) hne
  | append_singleton p c ih =>
      have hshorter : p <+: text := (List.prefix_append p [c]).trans hp
      have hstrict : p ≠ text := by
        rintro rfl
        exact absurd hp.length_le (by simp)
      intro q hq hne
      rcases List.prefix_concat_iff.mp hq with rfl | hq
      · -- the byte is the last one: what the loop does with it bounds the depth
        by_cases hnil : p = []
        · subst hnil
          obtain ⟨d, tail, hsplit, hd⟩ := hopen.of_prefix hp hne
          obtain ⟨rfl, -⟩ := List.cons.inj hsplit
          rw [List.nil_append, apparent_depth_open hd]
          decide
        · obtain ⟨s, hs'⟩ := huncut _ hp hproper
          rw [frames_snoc hs (hopen.of_prefix hshorter hnil) (ih hshorter hstrict)] at hs'
          have hlast := ih hshorter hstrict p (List.prefix_refl _) hnil
          have hstep := apparent_depth_step p c
          split_ifs at hs' with hzero hrange
          · simp at hs'
          · exact ⟨by omega, hrange⟩
      · exact ih hshorter hstrict q hq hne

/-- The loop cuts exactly the text where the depth that it sees in the text is positive and in
range up to the last byte, which takes it to zero. -/
theorem cuts_exactly_iff [Platform] {text : Text} (htext : Derived text) {space : Text}
    (hs : ∀ c ∈ space, isSpace c = true) : CutsExactly space text ↔ Apparent text := by
  obtain ⟨hopen, -⟩ := htext
  constructor
  · intro h
    obtain ⟨hframe, huncut⟩ := h
    have hinside := inside_of_uncut hs hopen huncut
    refine ⟨fun p hp hne hproper => hinside p hp hproper p (List.prefix_refl _) hne, ?_⟩
    cases text using List.reverseRecOn with
    | nil =>
        obtain ⟨c, tail, hnil, -⟩ := hopen
        exact absurd hnil (by simp)
    | append_singleton p c =>
        have hproper : p ≠ p ++ [c] := by simp
        by_cases hnil : p = []
        · -- one bracket alone is no frame
          subst hnil
          obtain ⟨d, tail, hsplit, hd⟩ := hopen
          obtain ⟨rfl, -⟩ := List.cons.inj hsplit
          rw [List.nil_append, frames, read_loop_spaces hs, readLoop, turn_open hd] at hframe
          simp [readLoop] at hframe
        · rw [frames_snoc hs (hopen.of_prefix (List.prefix_append _ _) hnil)
            (hinside p (List.prefix_append _ _) hproper)]
            at hframe
          split_ifs at hframe with hzero hrange
          · exact hzero
          · simp at hframe
  · intro happ
    constructor
    · have hloop : readLoop (fun frame seen => (seen ++ [frame], .returned)) .initial
          ([] : List Text) (text ++ []) = _ := read_loop_frame hopen happ []
      rw [List.append_nil] at hloop
      rw [frames, read_loop_spaces hs, hloop]
      rfl
    · intro p hp hproper
      by_cases hnil : p = []
      · subst hnil
        exact ⟨.initial, by rw [frames, read_loop_spaces hs]; rfl⟩
      · refine ⟨.inside p, ?_⟩
        have hloop : readLoop (fun frame seen => (seen ++ [frame], .returned)) .initial
            ([] : List Text) (p ++ []) = _ :=
          read_loop_inside (hopen.of_prefix hp hnil) (happ.of_prefix hp hproper) []
        rw [List.append_nil] at hloop
        rw [frames, read_loop_spaces hs, hloop]
        rfl

/-- Behind white space the loop cuts a text with an escaped backslash at its end. -/
theorem cuts_escaped_backslash :
    CutsExactly (str " ") (str "[\"\\\\\"]") ↔ Apparent (str "[\"\\\\\"]") :=
  @cuts_exactly_iff (.exact false) _
    ⟨⟨ch '[', _, rfl, rfl⟩, Or.inr ⟨[.string (str "\\")], rfl⟩⟩ _ (List.all_eq_true.mp rfl)

/-- Behind a string that is one escaped quote the loop does not see the closing bracket. -/
theorem escaped_quote_uncut :
    ¬ ∀ text, @Derived (.exact false) text →
      ∀ space, (∀ c ∈ space, isSpace c = true) → CutsExactly space text := by
  intro h
  have hcut := h (str "[\"\\\"\"]")
    ⟨⟨ch '[', _, rfl, rfl⟩, Or.inr ⟨[.string (str "\"")], rfl⟩⟩ [] (List.all_eq_true.mp rfl)
  exact absurd hcut.1 (by decide)

end BoostRpc.Json
