import BoostRpc.Json.Framing
import BoostRpc.Json.Printer

/-!
# Nesting

How deep the loop of `read_loop` sees the texts that the printers write and the texts that the
grammar takes. `Level m n text` says that a text in mode `m` ends in its own mode and at its own
depth, `n` levels deep in between. `enclosed_apparent_iff` turns a level into the condition under
which the loop cuts a text exactly.
-/

namespace BoostRpc.Json

open Peg

/-- What a byte adds to the depth in this mode. -/
def Mode.weight (m : Mode) (c : Byte) : Int := if m.sees then bracket c else 0

/-- The text leaves the loop in the mode and at the depth in which it found it, and takes it `n`
levels up in between. -/
structure Level (m : Mode) (n : Nat) (text : Text) : Prop where
  after : m.after text = m
  range : ∀ p, p <+: text → 0 ≤ m.apparent p ∧ m.apparent p ≤ n
  closed : m.apparent text = 0
  peak : ∃ p, p <+: text ∧ m.apparent p = n

theorem apparent_cons (m : Mode) (c : Byte) (text : Text) :
    m.apparent (c :: text) = m.weight c + (m.next c).apparent text := rfl

theorem apparent_snoc (m : Mode) (text : Text) (c : Byte) :
    m.apparent (text ++ [c]) = m.apparent text + (m.after text).weight c := by
  rw [Mode.apparent_append, apparent_cons]
  simp [Mode.apparent]

/-- Every level takes a bracket. -/
theorem apparent_le_length (m : Mode) (text : Text) : m.apparent text ≤ text.length := by
  induction text generalizing m with
  | nil => exact Int.le_refl _
  | cons c text ih =>
      have hweight : m.weight c ≤ 1 := by
        unfold Mode.weight
        split
        · exact (bracket_range c).2
        · decide
      have hrest := ih (m.next c)
      rw [apparent_cons, List.length_cons]
      omega

/-- A prefix of two texts one behind the other ends in the first or in the second. -/
theorem prefix_append_cases {p first second : Text} (h : p <+: first ++ second) :
    p <+: first ∨ ∃ q, p = first ++ q ∧ q <+: second := by
  obtain ⟨tail, htail⟩ := h
  rcases List.append_eq_append_iff.mp htail with ⟨q, hfirst, hsecond⟩ | ⟨q, hp, hsecond⟩
  · exact Or.inl ⟨q, hfirst.symm⟩
  · exact Or.inr ⟨q, hp, ⟨tail, hsecond.symm⟩⟩

namespace Level

variable {m : Mode} {n : Nat} {text : Text}

theorem nil (m : Mode) : Level m 0 [] := by
  refine ⟨rfl, ?_, rfl, [], List.prefix_refl _, rfl⟩
  intro p hp
  rw [List.prefix_nil.mp hp]
  exact ⟨Int.le_refl _, Int.le_refl _⟩

/-- The deeper one of two texts decides. -/
theorem append {k : Nat} {other : Text} (h : Level m n text) (h' : Level m k other) :
    Level m (max n k) (text ++ other) := by
  have hdepth : ∀ q, m.apparent (text ++ q) = m.apparent q := fun q => by
    rw [Mode.apparent_append, h.closed, h.after, Int.zero_add]
  refine ⟨by rw [Mode.after_append, h.after, h'.after], ?_, by rw [hdepth, h'.closed], ?_⟩
  · intro p hp
    rcases prefix_append_cases hp with hp | ⟨q, rfl, hq⟩
    · have hrange := h.range p hp
      omega
    · have hrange := h'.range q hq
      rw [hdepth]
      omega
  · obtain ⟨p, hp, hpeak⟩ := h.peak
    obtain ⟨q, hq, hpeak'⟩ := h'.peak
    rcases Nat.le_total n k with hle | hle
    · refine ⟨text ++ q, List.prefix_append_right_inj text |>.mpr hq, ?_⟩
      rw [hdepth, hpeak', Nat.max_eq_right hle]
    · refine ⟨p, hp.trans (List.prefix_append _ _), ?_⟩
      rw [hpeak, Nat.max_eq_left hle]

/-- A text between two bytes that lead into another mode and back. -/
theorem enclose {inner : Mode} {c d : Byte} {up : Nat} (h : Level inner n text)
    (hopen : m.next c = inner) (hclose : inner.next d = m) (hup : m.weight c = up)
    (hdown : inner.weight d = -up) : Level m (n + up) (c :: (text ++ [d])) := by
  have hdepth : ∀ q, m.apparent (c :: q) = up + inner.apparent q := fun q => by
    rw [apparent_cons, hup, hopen]
  have hlast : inner.apparent (text ++ [d]) = -up := by
    rw [apparent_snoc, h.closed, h.after, hdown, Int.zero_add]
  refine ⟨?_, ?_, by rw [hdepth, hlast]; omega, ?_⟩
  · rw [Mode.after_cons, hopen, Mode.after_append, h.after, Mode.after_cons, hclose, Mode.after_nil]
  · intro p hp
    rcases List.prefix_cons_iff.mp hp with rfl | ⟨q, rfl, hq⟩
    · exact ⟨Int.le_refl _, Int.natCast_nonneg _⟩
    · rw [hdepth]
      rcases List.prefix_concat_iff.mp hq with rfl | hq
      · rw [hlast]
        omega
      · have hrange := h.range q hq
        omega
  · obtain ⟨p, hp, hpeak⟩ := h.peak
    refine ⟨c :: p, List.cons_prefix_cons.mpr ⟨rfl, hp.trans (List.prefix_append _ _)⟩, ?_⟩
    rw [hdepth, hpeak]
    omega

/-- A byte that changes nothing. -/
theorem byte {c : Byte} (hnext : m.next c = m) (hweight : m.weight c = 0) : Level m 0 [c] := by
  have hdepth : m.apparent [c] = 0 := by rw [apparent_cons, hweight]; rfl
  refine ⟨hnext, ?_, hdepth, [], List.nil_prefix, rfl⟩
  intro p hp
  rcases List.prefix_cons_iff.mp hp with rfl | ⟨q, rfl, hq⟩
  · exact ⟨Int.le_refl _, Int.le_refl _⟩
  · rw [List.prefix_nil.mp hq, hdepth]
    exact ⟨Int.le_refl _, Int.le_refl _⟩

/-- Bytes that change nothing. -/
theorem bytes (h : ∀ c ∈ text, m.next c = m ∧ m.weight c = 0) : Level m 0 text := by
  induction text with
  | nil => exact nil m
  | cons c text ih =>
      have hc := h c List.mem_cons_self
      exact (byte hc.1 hc.2).append (ih fun d hd => h d (List.mem_cons_of_mem c hd))

end Level

/-- A byte that is neither a bracket nor a quote. -/
def isQuiet (c : Byte) : Bool := bracket c == 0 && c != ch '"'

/-- Outside strings only brackets and quotes matter. -/
theorem level_quiet {text : Text} (h : ∀ c ∈ text, isQuiet c = true) : Level .start 0 text := by
  refine Level.bytes fun c hc => ?_
  obtain ⟨hbracket, hquote⟩ : bracket c = 0 ∧ c ≠ ch '"' := by simpa [isQuiet] using h c hc
  constructor
  · simp [Mode.start, Mode.next, Place.next, hquote]
  · simp [Mode.weight, hbracket]

theorem level_spaces {space : Text} (h : Spaces space) : Level .start 0 space :=
  level_quiet fun c hc =>
    forall_byte (P := fun c => isSpace c = true → isQuiet c = true) (by decide +kernel) c (h c hc)

/-- The mode in a string behind an even number of escaped quotes. -/
def Mode.string : Mode := ⟨.inString, false⟩

/-- A string is as quiet as the text between its quotes. -/
theorem level_quoted {text : Text} {n : Nat} (h : Level .string n text) :
    Level .start n (quoted text) := by
  have hquoted : Level .start (n + 0) (ch '"' :: (text ++ [ch '"'])) := h.enclose rfl rfl rfl rfl
  exact hquoted

/-- A bracket around a text makes it one level deeper. -/
theorem level_bracket {text : Text} {n : Nat} {c d : Byte} (h : Level .start n text)
    (hc : bracket c = 1) (hd : bracket d = -1) : Level .start (n + 1) (c :: (text ++ [d])) := by
  have quiet : ∀ b : Byte, bracket b ≠ 0 → Mode.start.next b = .start := by
    intro b hb
    have hquote : b ≠ ch '"' := fun he => hb (he ▸ bracket_quote)
    simp [Mode.start, Mode.next, Place.next, hquote]
  have sees : ∀ b : Byte, Mode.start.weight b = bracket b := fun b => rfl
  exact h.enclose (quiet c (by omega)) (quiet d (by omega)) (by rw [sees, hc]; rfl)
    (by rw [sees, hd]; rfl)

/-! ## Frames -/

/-- The text is a text of level `n` between brackets. -/
def Enclosed (n : Nat) (text : Text) : Prop :=
  ∃ c body d, text = c :: (body ++ [d]) ∧ bracket c = 1 ∧ bracket d = -1 ∧ Level .start n body

theorem Enclosed.opens {n : Nat} {text : Text} (h : Enclosed n text) : Opens text := by
  obtain ⟨c, body, d, rfl, hc, -, -⟩ := h
  exact ⟨c, _, rfl, hc⟩

/-- Behind its first bracket a text between brackets is one level deeper. -/
theorem apparent_depth_behind {c : Byte} (hc : bracket c = 1) (text : Text) :
    apparentDepth (c :: text) = 1 + apparentDepth text := by
  have hquote : c ≠ ch '"' := by
    rintro rfl
    exact absurd hc (by decide)
  have hnext : Mode.start.next c = .start := by simp [Mode.start, Mode.next, Place.next, hquote]
  have hweight : Mode.start.weight c = 1 := hc
  rw [apparentDepth, apparent_cons, hnext, hweight, apparentDepth]

/-- Inside of a text between brackets the depth is positive. -/
theorem Enclosed.positive {n : Nat} {text : Text} (h : Enclosed n text) (p : Text)
    (hp : p <+: text) (hne : p ≠ []) (hproper : p ≠ text) :
    0 < apparentDepth p ∧ apparentDepth p ≤ n + 1 := by
  obtain ⟨c, body, d, rfl, hc, hd, hlevel⟩ := h
  rcases List.prefix_cons_iff.mp hp with rfl | ⟨q, rfl, hq⟩
  · exact absurd rfl hne
  · rcases List.prefix_concat_iff.mp hq with rfl | hq
    · exact absurd rfl hproper
    · have hrange : 0 ≤ apparentDepth q ∧ apparentDepth q ≤ n := hlevel.range q hq
      rw [apparent_depth_behind hc]
      omega

/-- The loop cuts a text between brackets exactly where the depth stays in the range of `int`. -/
theorem enclosed_apparent_iff {n : Nat} {text : Text} (h : Enclosed n text) :
    Apparent text ↔ n + 1 < 2 ^ 31 := by
  have hpositive := h.positive
  obtain ⟨c, body, d, rfl, hc, hd, hlevel⟩ := h
  constructor
  · intro happ
    obtain ⟨p, hp, hpeak⟩ := hlevel.peak
    have hprefix : c :: p <+: c :: (body ++ [d]) :=
      List.cons_prefix_cons.mpr ⟨rfl, hp.trans (List.prefix_append _ _)⟩
    have hproper : c :: p ≠ c :: (body ++ [d]) := by
      intro he
      have hle := hp.length_le
      rw [(List.cons.inj he).2] at hle
      simp at hle
    have hrange := (happ.inside _ hprefix (by simp) hproper).2
    have hdeep : apparentDepth p = n := hpeak
    rw [apparent_depth_behind hc, hdeep] at hrange
    omega
  · intro hn
    refine ⟨fun p hp hne hproper => ?_, (level_bracket hlevel hc hd).closed⟩
    have hrange := hpositive p hp hne hproper
    omega

section Overflow

variable {σ : Type} {deliver : Text → σ → σ × Treated} {st : σ}

/-- Inside of a text with a positive depth the loop stays in range or has no defined result. -/
theorem read_loop_in_range {text : Text} (hopen : Opens text)
    (hpositive : ∀ p, p <+: text → p ≠ [] → p ≠ text → 0 < apparentDepth p) (p : Text)
    (hp : p <+: text) (hproper : p ≠ text) :
    (∀ q, q <+: p → q ≠ [] → 0 < apparentDepth q ∧ apparentDepth q < 2 ^ 31) ∨
      ∀ rest, readLoop deliver .initial st (p ++ rest) = .undefined := by
  induction p using List.reverseRecOn with
  | nil => exact Or.inl fun q hq hne => absurd (List.prefix_nil.mp hq) hne
  | append_singleton p c ih =>
      have hshorter : p <+: text := (List.prefix_append p [c]).trans hp
      have hstrict : p ≠ text := by
        rintro rfl
        exact absurd hp.length_le (by simp)
      rcases ih hshorter hstrict with hinside | hundefined
      · have hpos := hpositive _ hp (by simp) hproper
        by_cases hrange : apparentDepth (p ++ [c]) < 2 ^ 31
        · refine Or.inl fun q hq hne => ?_
          rcases List.prefix_concat_iff.mp hq with rfl | hq
          · exact ⟨hpos, hrange⟩
          · exact hinside q hq hne
        · right
          intro rest
          by_cases hnil : p = []
          · subst hnil
            obtain ⟨d, tail, hsplit, hd⟩ := hopen.of_prefix hp (by simp)
            obtain ⟨rfl, -⟩ := List.cons.inj hsplit
            exact absurd (apparent_depth_open hd ▸ hrange) (by decide)
          · have hlast := hinside p (List.prefix_refl _) hnil
            rw [List.append_assoc, read_loop_inside (hopen.of_prefix hshorter hnil) hinside,
              List.singleton_append, readLoop, turn_inside hlast, if_neg (by omega),
              if_neg hrange]
      · right
        intro rest
        rw [List.append_assoc]
        exact hundefined _

/-- A text nested deeper than the range of `int` has no defined result. -/
theorem read_loop_overflow {n : Nat} {text : Text} (h : Enclosed n text) (hn : ¬ n + 1 < 2 ^ 31)
    (rest : Text) : readLoop deliver .initial st (text ++ rest) = .undefined := by
  have hopen := h.opens
  have hpositive := h.positive
  have hnot := mt (enclosed_apparent_iff h).mp hn
  obtain ⟨c, body, d, rfl, hc, hd, hlevel⟩ := h
  have hproper : c :: body ≠ c :: (body ++ [d]) := by simp
  have hprefix : c :: body <+: c :: (body ++ [d]) :=
    List.cons_prefix_cons.mpr ⟨rfl, List.prefix_append _ _⟩
  rcases read_loop_in_range hopen (fun p hp hne hp' => (hpositive p hp hne hp').1) _ hprefix
    hproper with hinside | hundefined
  · refine absurd ⟨fun p hp hne hp' => hinside p ?_ hne, (level_bracket hlevel hc hd).closed⟩ hnot
    rcases List.prefix_cons_iff.mp hp with rfl | ⟨q, rfl, hq⟩
    · exact absurd rfl hne
    · rcases List.prefix_concat_iff.mp hq with rfl | hq
      · exact absurd rfl hp'
      · exact List.cons_prefix_cons.mpr ⟨rfl, hq⟩
  · have hsplit : c :: (body ++ [d]) ++ rest = c :: body ++ ([d] ++ rest) := by simp
    rw [hsplit]
    exact hundefined _

end Overflow

/-! ## Printed texts -/

mutual
/-- How many arrays and objects stand in one another. -/
def nesting : Value → Nat
  | .object keys => nestingKeys keys + 1
  | .array vals => nestingVals vals + 1
  | _ => 0

/-- The nesting of the values of an object. -/
def nestingKeys : List (Text × Value) → Nat
  | [] => 0
  | (_, val) :: keys => max (nesting val) (nestingKeys keys)

/-- The nesting of the elements of an array. -/
def nestingVals : List Value → Nat
  | [] => 0
  | val :: vals => max (nesting val) (nestingVals vals)
end

/-- The bytes of a plain string change nothing between its quotes. -/
theorem level_plain {text : Text} (h : PlainText text) : Level .start 0 (quoted text) := by
  refine level_quoted (Level.bytes fun c hc => ?_)
  obtain ⟨-, hquote, hback⟩ := h c hc
  constructor
  · simp [Mode.string, Mode.next, Place.next, hquote, hback]
  · rfl

theorem level_micro_numeral (k : Int) : Level .start 0 (microNumeral k) := by
  have digits_quiet : ∀ b : Byte, isDigit b = true → isQuiet b = true :=
    forall_byte (by decide +kernel)
  have hmicro : ∀ c ∈ microText k.natAbs, isQuiet c = true := by
    intro c hc
    rcases List.mem_append.mp hc with hc | hc
    · exact digits_quiet c (decimal_is_digit _ c hc)
    · rcases List.mem_cons.mp hc with rfl | hc
      · decide
      · exact digits_quiet c (padded_is_digit _ _ c hc)
  refine level_quiet fun c hc => ?_
  unfold microNumeral at hc
  split at hc
  · rcases List.mem_cons.mp hc with rfl | hc
    · decide
    · exact hmicro c hc
  · exact hmicro c hc

/-- A comma, or a colon, and the texts around it. -/
theorem level_separated {first second : Text} {n k : Nat} {c : Byte} (hc : isQuiet c = true)
    (h : Level .start n first) (h' : Level .start k second) :
    Level .start (max n k) (first ++ c :: second) := by
  have hquiet : Level .start 0 [c] :=
    level_quiet fun d hd => List.mem_singleton.mp hd ▸ hc
  have hlevel := h.append (hquiet.append h')
  rwa [Nat.zero_max] at hlevel

theorem colon_quiet : isQuiet (ch ':') = true := by decide

theorem comma_quiet : isQuiet (ch ',') = true := by decide

mutual
/-- The level of a text of a value is the nesting of the value. -/
theorem renders_level {v : Value} {text : Text} (h : Renders v text) :
    Level .start (nesting v) text := by
  cases h with
  | null => exact level_quiet (List.all_eq_true.mp rfl)
  | number k => exact level_micro_numeral k
  | bool b => cases b <;> exact level_quiet (List.all_eq_true.mp rfl)
  | string text ht => exact level_plain ht
  | emptyObject => exact level_bracket (.nil _) rfl rfl
  | object keys body hkeys => exact level_bracket (renders_keys_level hkeys) rfl rfl
  | emptyArray => exact level_bracket (.nil _) rfl rfl
  | array vals body hvals => exact level_bracket (renders_vals_level hvals) rfl rfl

/-- The level of a text of pairs. -/
theorem renders_keys_level {keys : Object} {body : Text} (h : RendersKeys keys body) :
    Level .start (nestingKeys keys) body := by
  cases h with
  | last key val before text after hb hk hv ha =>
      have hval := (renders_level hv).append (level_spaces ha)
      have hpair := level_separated colon_quiet (level_plain hk) hval
      simpa [nestingKeys] using (level_spaces hb).append hpair
  | cons key val keys before text body hb hk hv hkeys =>
      have hrest := level_separated comma_quiet (renders_level hv)
        (renders_keys_level hkeys)
      have hpair := level_separated colon_quiet (level_plain hk) hrest
      simpa [nestingKeys] using (level_spaces hb).append hpair

/-- The level of a text of elements. -/
theorem renders_vals_level {vals : List Value} {body : Text} (h : RendersVals vals body) :
    Level .start (nestingVals vals) body := by
  cases h with
  | last val before text after hb hv ha =>
      have hval := (renders_level hv).append (level_spaces ha)
      simpa [nestingVals] using (level_spaces hb).append hval
  | cons val vals before text body hb hv hvals =>
      have hrest := level_separated comma_quiet (renders_level hv)
        (renders_vals_level hvals)
      simpa [nestingVals] using (level_spaces hb).append hrest
end

/-- A value with brackets around it. -/
def Value.isContainer : Value → Bool
  | .object _ => true
  | .array _ => true
  | _ => false

/-- A text of an array or object is a text between brackets. -/
theorem renders_enclosed {v : Value} {text : Text} (h : Renders v text)
    (hv : v.isContainer = true) : ∃ n, nesting v = n + 1 ∧ Enclosed n text := by
  cases h with
  | null | number | bool | string => exact absurd hv (by simp [Value.isContainer])
  | emptyObject => exact ⟨0, rfl, ch '{', [], ch '}', rfl, rfl, rfl, .nil _⟩
  | object keys body hkeys =>
      exact ⟨_, rfl, ch '{', body, ch '}', rfl, rfl, rfl, renders_keys_level hkeys⟩
  | emptyArray => exact ⟨0, rfl, ch '[', [], ch ']', rfl, rfl, rfl, .nil _⟩
  | array vals body hvals =>
      exact ⟨_, rfl, ch '[', body, ch ']', rfl, rfl, rfl, renders_vals_level hvals⟩

/-! ## Texts of the grammar -/

/-- No payload of a `nan`, and no quote behind a backslash. -/
def Clear (text : Text) : Prop := ch '(' ∉ text ∧ ¬ [ch '\\', ch '"'] <:+: text

theorem Clear.of_infix {text piece : Text} (h : Clear text) (hp : piece <:+: text) :
    Clear piece := ⟨fun hc => h.1 (hp.subset hc), fun hq => h.2 (hq.trans hp)⟩

/-- A clear text has a level. -/
def Leveled (m : Mode) (text : Text) : Prop := Clear text → ∃ n, Level m n text

theorem Leveled.append {m : Mode} (first second : Text) (h : Leveled m first)
    (h' : Leveled m second) : Leveled m (first ++ second) := by
  intro hclear
  obtain ⟨n, hn⟩ := h (hclear.of_infix (List.prefix_append _ _).isInfix)
  obtain ⟨k, hk⟩ := h' (hclear.of_infix (List.suffix_append _ _).isInfix)
  exact ⟨_, hn.append hk⟩

theorem leveled_quiet {text : Text} (h : ∀ c ∈ text, isQuiet c = true) : Leveled .start text :=
  fun _ => ⟨0, level_quiet h⟩

/-- A terminal of quiet bytes, behind white space. -/
theorem consumes_token {α : Type} {p : Parser Byte α} {Q : Text → Prop} {R : Text → Prop}
    (h : Consumes R p) (hspaced : ∀ space t, Spaces space → R t → Q (space ++ t)) :
    Consumes Q (token p) := h.skipping hspaced

theorem leveled_spaced (space text : Text) (hs : Spaces space) (h : Leveled .start text) :
    Leveled .start (space ++ text) :=
  Leveled.append space text (fun _ => ⟨0, level_spaces hs⟩) h

theorem consumes_separator {c : Char} (hc : isQuiet (ch c) = true) :
    Consumes (Leveled .start) (token (lit c)) := by
  refine consumes_token (Consumes.satisfy fun b hb => ?_) leveled_spaced
  obtain rfl : b = ch c := by simpa using hb
  exact leveled_quiet fun d hd => List.mem_singleton.mp hd ▸ hc

/-- White space and one byte. -/
theorem consumes_bracket (c : Char) :
    Consumes (fun t => ∃ space, Spaces space ∧ t = space ++ [ch c]) (token (lit c)) := by
  refine consumes_token (Consumes.satisfy (Q := fun t => t = [ch c]) fun b hb => ?_) ?_
  · rw [show b = ch c by simpa using hb]
  · rintro space t hs rfl
    exact ⟨space, hs, rfl⟩

/-- A numeral is quiet. -/
theorem leveled_numeral {text : Text} (h : Numeral text) : Leveled .start text := by
  intro hclear
  rcases h with hparen | hbytes
  · exact absurd hparen hclear.1
  · have numerals_quiet : ∀ b : Byte, numeralByte b = true → isQuiet b = true :=
      forall_byte (by decide +kernel)
    exact ⟨0, level_quiet fun c hc => numerals_quiet c (hbytes c hc)⟩

/-- A clear text has no quote in a string. -/
theorem consumes_string_char : Consumes (fun t => Clear t → ch '"' ∉ t) stringChar := by
  refine .alt (.symbols ?_) (.satisfy ?_)
  · intro entry hentry hclear
    simp only [List.mem_cons, List.not_mem_nil, or_false] at hentry
    rcases hentry with rfl | rfl | rfl | rfl | rfl
    · decide
    · decide
    · decide
    · decide
    · exact absurd (List.infix_refl _) hclear.2
  · intro c hc _
    simp only [Bool.and_eq_true, bne_iff_ne] at hc
    simpa using Ne.symm hc.2

/-- In a string nothing is seen up to a quote. -/
theorem unseen {m : Mode} (hquoted : m.place.quoted = true) (hodd : m.odd = false) {text : Text}
    (h : ch '"' ∉ text) :
    m.apparent text = 0 ∧ (m.after text).place.quoted = true ∧ (m.after text).odd = false := by
  induction text generalizing m with
  | nil => exact ⟨rfl, hquoted, hodd⟩
  | cons c text ih =>
      obtain ⟨hc, htext⟩ : c ≠ ch '"' ∧ ch '"' ∉ text := by simpa [eq_comm] using h
      have hnext : (m.next c).place.quoted = true := (Place.quoted_next m.place hc).trans hquoted
      have hsame : (m.next c).odd = false := by
        show (if m.place = .escape ∧ c = ch '"' then !m.odd else m.odd) = false
        rw [if_neg fun he => hc he.2, hodd]
      have hweight : m.weight c = 0 := if_neg (by simp [Mode.sees, hquoted, hodd])
      rw [apparent_cons, hweight, Int.zero_add]
      exact ih hnext hsame htext

/-- A run of bytes without quotes that does not end in a backslash is quiet in a string. -/
theorem level_string {text : Text} (h : ch '"' ∉ text) (hlast : text.getLast? ≠ some (ch '\\')) :
    Level .string 0 text := by
  have hzero : ∀ p, p <+: text → Mode.string.apparent p = 0 := fun p hp =>
    (unseen rfl rfl fun hmem => h (hp.subset hmem)).1
  refine ⟨?_, fun p hp => ?_, hzero text (List.prefix_refl _), [], List.nil_prefix, rfl⟩
  · cases text using List.reverseRecOn with
    | nil => rfl
    | append_singleton text c =>
        obtain ⟨htext, hc⟩ : ch '"' ∉ text ∧ c ≠ ch '"' := by simpa [eq_comm] using h
        have hback : c ≠ ch '\\' := by simpa using hlast
        obtain ⟨-, hquoted, hodd⟩ := unseen (m := .string) rfl rfl htext
        rw [Mode.after_append, Mode.after_cons, Mode.after_nil]
        generalize Mode.string.after text = m at hquoted hodd
        obtain ⟨place, odd⟩ := m
        cases place with
        | outside => exact absurd hquoted (by simp [Place.quoted])
        | inString | escape =>
            subst hodd
            simp [Mode.next, Place.next, Mode.string, hc, hback]
  · rw [hzero p hp]
    exact ⟨Int.le_refl _, Int.le_refl _⟩

theorem consumes_string : Consumes (Leveled .start) unescStr := by
  have hbody : Consumes (fun t => Clear t → ch '"' ∉ t) (many stringChar) :=
    consumes_string_char.many (fun _ => List.not_mem_nil) fun s t hs ht hclear hmem =>
      (List.mem_append.mp hmem).elim
        (hs (hclear.of_infix (List.prefix_append _ _).isInfix))
        (ht (hclear.of_infix (List.suffix_append _ _).isInfix))
  have hquote : Consumes (fun t => t = [ch '"']) (lit '"') :=
    Consumes.satisfy fun c hc => by rw [show c = ch '"' by simpa using hc]
  have hrest : Consumes (fun t => ∃ body, t = body ++ [ch '"'] ∧ (Clear body → ch '"' ∉ body))
      (seq (many stringChar) (lit '"')) :=
    hbody.seq hquote fun body _ hnone hq => ⟨body, by rw [hq], hnone⟩
  have hstring : Consumes (Leveled .start) (seq (lit '"') (seq (many stringChar) (lit '"'))) := by
    refine hquote.seq hrest ?_
    rintro _ _ rfl ⟨body, rfl, hnone⟩ hclear
    have hbare : ch '"' ∉ body := hnone (hclear.of_infix ⟨[ch '"'], [ch '"'], by simp⟩)
    refine ⟨0, level_quoted (level_string hbare fun hlast => ?_)⟩
    -- the closing quote would stand behind a backslash
    obtain ⟨front, rfl⟩ := List.getLast?_eq_some_iff.mp hlast
    exact hclear.2 ⟨ch '"' :: front, [], by simp⟩
  exact consumes_token hstring.map leveled_spaced

/-- A repetition of separated pieces. -/
theorem consumes_list {α β : Type} {p : Parser Byte α} {separator : Parser Byte β}
    (hp : Consumes (Leveled .start) p) (hs : Consumes (Leveled .start) separator) :
    Consumes (Leveled .start) (list p separator) := by
  refine Consumes.list hp hs (fun _ => ⟨0, .nil _⟩) ?_ Leveled.append
  intro r s t hr hs ht
  exact Leveled.append _ t (Leveled.append r s hr hs) ht

/-- What stands between two brackets, behind white space. -/
def Bracketed (text : Text) : Prop :=
  ∃ space c body d, text = space ++ c :: (body ++ [d]) ∧ Spaces space ∧ bracket c = 1 ∧
    bracket d = -1 ∧ Leveled .start body

theorem Bracketed.leveled {text : Text} (h : Bracketed text) : Leveled .start text := by
  obtain ⟨space, c, body, d, rfl, hs, hc, hd, hbody⟩ := h
  refine leveled_spaced space _ hs fun hclear => ?_
  obtain ⟨n, hn⟩ := hbody (hclear.of_infix ⟨[c], [d], by simp⟩)
  exact ⟨n + 1, level_bracket hn hc hd⟩

/-- A sequence of an opening bracket, a body and a closing bracket. -/
theorem consumes_brackets {α : Type} {p : Parser Byte α} {c d : Char} (hc : bracket (ch c) = 1)
    (hd : bracket (ch d) = -1) (hp : Consumes (Leveled .start) p) :
    Consumes Bracketed (seq (token (lit c)) (seq p (token (lit d)))) := by
  have hrest : Consumes (fun t => ∃ body, t = body ++ [ch d] ∧ Leveled .start body)
      (seq p (token (lit d))) := by
    refine hp.seq (consumes_bracket d) ?_
    rintro body _ hbody ⟨space, hs, rfl⟩
    refine ⟨body ++ space, by simp, Leveled.append _ _ hbody fun _ => ⟨0, level_spaces hs⟩⟩
  refine (consumes_bracket c).seq hrest ?_
  rintro _ _ ⟨space, hs, rfl⟩ ⟨body, rfl, hbody⟩
  exact ⟨space, ch c, body, ch d, by simp, hs, hc, hd, hbody⟩

theorem consumes_object {json : Parser Byte Value} (h : Consumes (Leveled .start) json) :
    Consumes Bracketed (objectR json) := by
  have hkey : Consumes (Leveled .start) (keyvalR json) :=
    (consumes_string.seq ((consumes_separator colon_quiet).seq h Leveled.append)
      Leveled.append).map
  exact (consumes_brackets rfl rfl (consumes_list hkey (consumes_separator comma_quiet))).map

theorem consumes_array {json : Parser Byte Value} (h : Consumes (Leveled .start) json) :
    Consumes Bracketed (arrayR json) :=
  (consumes_brackets rfl rfl (consumes_list h (consumes_separator comma_quiet))).map

/-- `token eps` takes white space. -/
theorem consumes_eps : Consumes (Leveled .start) (token eps) :=
  consumes_token (.eps rfl : Consumes (fun t => t = []) eps) fun space t hs ht => by
    rw [ht, List.append_nil]
    exact fun _ => ⟨0, level_spaces hs⟩

/-- What `json_r` takes has a level, where it is clear. -/
theorem consumes_json [Platform] : Consumes (Leveled .start) jsonR := by
  refine Consumes.fix fun json hjson => ?_
  have hword : ∀ word : Text, word.all isQuiet = true →
      Consumes (Leveled .start) (literal word) :=
    fun word h => .literal (leveled_quiet (List.all_eq_true.mp h))
  have hnull : Consumes (Leveled .start) nullS := .symbols fun entry hentry => by
    rw [List.mem_singleton.mp hentry]
    exact leveled_quiet (List.all_eq_true.mp rfl)
  refine .alt (consumes_token (double_consumes.mono fun t => leveled_numeral) leveled_spaced).map <|
    .alt (consumes_token (.alt (hword _ rfl).map (hword _ rfl).map)
      leveled_spaced).map <|
    .alt consumes_string.map <|
    .alt ((consumes_object hjson).mono fun t => Bracketed.leveled).map <|
    .alt ((consumes_array hjson).mono fun t => Bracketed.leveled).map <|
    .alt (consumes_token hnull leveled_spaced) <|
    .alt ((consumes_brackets rfl rfl consumes_eps).mono fun t => Bracketed.leveled).map.map
      ((consumes_brackets rfl rfl consumes_eps).mono fun t => Bracketed.leveled).map.map

/-- The loop sees a text of the grammar right that has no payload of a `nan`, no quote behind a
backslash and fewer than `2 ^ 31` bytes. -/
theorem derived_apparent [Platform] {text : Text} (h : Derived text) (hclear : Clear text)
    (hlen : text.length < 2 ^ 31) : Apparent text := by
  obtain ⟨hopen, hrule⟩ := h
  have htaken : Bracketed text := by
    rcases hrule with ⟨keys, hkeys⟩ | ⟨vals, hvals⟩
    · obtain ⟨taken, rfl, htaken⟩ := consumes_object consumes_json _ _ _ hkeys
      rwa [List.append_nil]
    · obtain ⟨taken, rfl, htaken⟩ := consumes_array consumes_json _ _ _ hvals
      rwa [List.append_nil]
  obtain ⟨space, c, body, d, rfl, hs, hc, hd, hbody⟩ := htaken
  have hnone : space = [] := by
    by_contra hne
    obtain ⟨e, others, hsplit, he⟩ := hopen.of_prefix (List.prefix_append _ _) hne
    have spaces_quiet : ∀ b : Byte, isSpace b = true → bracket b = 0 :=
      forall_byte (by decide +kernel)
    have hquiet := spaces_quiet e (hs e (by simp [hsplit]))
    omega
  subst hnone
  obtain ⟨n, hn⟩ := hbody (hclear.of_infix ⟨[c], [d], by simp⟩)
  refine (enclosed_apparent_iff ⟨c, body, d, rfl, hc, hd, hn⟩).mpr ?_
  obtain ⟨p, hp, hpeak⟩ := hn.peak
  have hbound := apparent_le_length .start p
  have hshort := hp.length_le
  simp only [List.nil_append, List.length_cons, List.length_append, List.length_nil] at hlen
  omega

end BoostRpc.Json
