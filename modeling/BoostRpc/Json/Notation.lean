import BoostRpc.Json.Reading

/-!
# JSON texts

The grammar of JSON texts over a `Lexis`: what a number is, what may stand between quotes and what
white space is. `rfc8259` is the lexis of JSON over ASCII; `relaxed` is the one that the terminals
of the reader make. Every JSON text is a relaxed one (`relaxed_of_rfc`).
-/

namespace BoostRpc.Json

/-! ## The grammar -/

/-- What the terminals of a JSON grammar take. -/
structure Lexis where
  number : Text → Prop
  /-- The characters between quotes. -/
  chars : Text → Prop
  space : Byte → Bool

/-- White space only. -/
def Lexis.Blank (l : Lexis) (text : Text) : Prop := ∀ c ∈ text, l.space c = true

mutual
/-- A JSON text without white space around it. -/
inductive JsonText (l : Lexis) : Text → Prop where
  | null : JsonText l (str "null")
  | bool (b : Bool) : JsonText l (if b then str "true" else str "false")
  | number (text : Text) : l.number text → JsonText l text
  | string (text : Text) : l.chars text → JsonText l (quoted text)
  | emptyObject (space : Text) : l.Blank space → JsonText l (ch '{' :: (space ++ [ch '}']))
  | object (body : Text) : MembersText l body → JsonText l (ch '{' :: (body ++ [ch '}']))
  | emptyArray (space : Text) : l.Blank space → JsonText l (ch '[' :: (space ++ [ch ']']))
  | array (body : Text) : ElementsText l body → JsonText l (ch '[' :: (body ++ [ch ']']))

/-- The members of an object, at least one. -/
inductive MembersText (l : Lexis) : Text → Prop where
  | last (before key middle behind text after : Text) :
      l.Blank before → l.chars key → l.Blank middle → l.Blank behind → JsonText l text →
      l.Blank after →
      MembersText l (before ++ (quoted key ++ (middle ++ ch ':' :: (behind ++ (text ++ after)))))
  | cons (before key middle behind text after body : Text) :
      l.Blank before → l.chars key → l.Blank middle → l.Blank behind → JsonText l text →
      l.Blank after → MembersText l body →
      MembersText l (before ++ (quoted key ++
        (middle ++ ch ':' :: (behind ++ (text ++ (after ++ ch ',' :: body))))))

/-- The elements of an array, at least one. -/
inductive ElementsText (l : Lexis) : Text → Prop where
  | last (before text after : Text) :
      l.Blank before → JsonText l text → l.Blank after →
      ElementsText l (before ++ (text ++ after))
  | cons (before text after body : Text) :
      l.Blank before → JsonText l text → l.Blank after → ElementsText l body →
      ElementsText l (before ++ (text ++ (after ++ ch ',' :: body)))
end

/-- A lexis takes what another one takes. -/
structure Lexis.Extends (m l : Lexis) : Prop where
  number : ∀ text, l.number text → m.number text
  chars : ∀ text, l.chars text → m.chars text
  space : ∀ c, l.space c = true → m.space c = true

theorem Lexis.Extends.blank {l m : Lexis} (h : m.Extends l) {text : Text} (hb : l.Blank text) :
    m.Blank text := fun c hc => h.space c (hb c hc)

mutual
/-- A text over a lexis is one over every extension of it. -/
theorem JsonText.mono {l m : Lexis} (h : m.Extends l) {text : Text} :
    JsonText l text → JsonText m text
  | .null => .null
  | .bool b => .bool b
  | .number text hn => .number text (h.number text hn)
  | .string text hc => .string text (h.chars text hc)
  | .emptyObject space hs => .emptyObject space (h.blank hs)
  | .object body hb => .object body (MembersText.mono h hb)
  | .emptyArray space hs => .emptyArray space (h.blank hs)
  | .array body hb => .array body (ElementsText.mono h hb)

theorem MembersText.mono {l m : Lexis} (h : m.Extends l) {body : Text} :
    MembersText l body → MembersText m body
  | .last before key middle behind text after h1 hk h2 h3 ht h4 =>
      .last before key middle behind text after (h.blank h1) (h.chars key hk) (h.blank h2)
        (h.blank h3) (JsonText.mono h ht) (h.blank h4)
  | .cons before key middle behind text after body h1 hk h2 h3 ht h4 hb =>
      .cons before key middle behind text after body (h.blank h1) (h.chars key hk)
        (h.blank h2) (h.blank h3) (JsonText.mono h ht) (h.blank h4) (MembersText.mono h hb)

theorem ElementsText.mono {l m : Lexis} (h : m.Extends l) {body : Text} :
    ElementsText l body → ElementsText m body
  | .last before text after h1 ht h2 =>
      .last before text after (h.blank h1) (JsonText.mono h ht) (h.blank h2)
  | .cons before text after body h1 ht h2 hb =>
      .cons before text after body (h.blank h1) (JsonText.mono h ht) (h.blank h2)
        (ElementsText.mono h hb)
end

/-! ## Numbers -/

/-- Decimal digits only. -/
def Digits (text : Text) : Prop := ∀ c ∈ text, isDigit c = true

/-- An exponent, or none. -/
inductive ExponentText : Text → Prop where
  | none : ExponentText []
  | some (c : Byte) (sgn digits : Text) : c = ch 'e' ∨ c = ch 'E' →
      sgn = [] ∨ sgn = [ch '-'] ∨ sgn = [ch '+'] → Digits digits → digits ≠ [] →
      ExponentText (c :: (sgn ++ digits))

/-- The integer part of a JSON number: without leading zeros. -/
inductive IntText : Text → Prop where
  | zero : IntText [ch '0']
  | digits (c : Byte) (digits : Text) : isDigit c = true → c ≠ ch '0' → Digits digits →
      IntText (c :: digits)

/-- The fraction of a JSON number, or none. -/
inductive FracText : Text → Prop where
  | none : FracText []
  | some (digits : Text) : Digits digits → digits ≠ [] → FracText (ch '.' :: digits)

/-- A JSON number. -/
inductive RfcNumber : Text → Prop where
  | mk (sgn int frac exp : Text) : sgn = [] ∨ sgn = [ch '-'] → IntText int → FracText frac →
      ExponentText exp → RfcNumber (sgn ++ (int ++ (frac ++ exp)))

/-- A word in letters of either case. -/
def AnyCase : Text → Text → Text → Prop
  | [], [], [] => True
  | l :: lower, u :: upper, c :: text => (c = l ∨ c = u) ∧ AnyCase lower upper text
  | _, _, _ => False

/-- What may stand behind `nan`. -/
inductive NanPayload : Text → Prop where
  | none : NanPayload []
  | some (body : Text) : ch ')' ∉ body → NanPayload (ch '(' :: (body ++ [ch ')']))

/-- A numeral of `double_`: with a sign of either kind, with leading zeros, without digits on one
side of the point, or a special value. -/
inductive RelaxedNumber : Text → Prop where
  | nan (sgn word payload : Text) : sgn = [] ∨ sgn = [ch '-'] ∨ sgn = [ch '+'] →
      AnyCase (str "nan") (str "NAN") word → NanPayload payload →
      RelaxedNumber (sgn ++ (word ++ payload))
  | infinity (sgn word tail : Text) : sgn = [] ∨ sgn = [ch '-'] ∨ sgn = [ch '+'] →
      AnyCase (str "inf") (str "INF") word →
      tail = [] ∨ AnyCase (str "inity") (str "INITY") tail → RelaxedNumber (sgn ++ (word ++ tail))
  | decimal (sgn int exp : Text) : sgn = [] ∨ sgn = [ch '-'] ∨ sgn = [ch '+'] → Digits int →
      int ≠ [] → ExponentText exp → RelaxedNumber (sgn ++ (int ++ exp))
  | fraction (sgn int frac exp : Text) : sgn = [] ∨ sgn = [ch '-'] ∨ sgn = [ch '+'] →
      Digits int → Digits frac → int ≠ [] ∨ frac ≠ [] → ExponentText exp →
      RelaxedNumber (sgn ++ (int ++ ch '.' :: (frac ++ exp)))

theorem IntText.digits_ne {int : Text} (h : IntText int) : Digits int ∧ int ≠ [] := by
  cases h with
  | zero => exact ⟨fun c hc => List.mem_singleton.mp hc ▸ by decide, by simp⟩
  | digits c digits hc _ hd =>
      exact ⟨fun d hm => (List.mem_cons.mp hm).elim (fun he => he ▸ hc) (hd d), by simp⟩

theorem relaxed_number_of_rfc {text : Text} (h : RfcNumber text) : RelaxedNumber text := by
  obtain ⟨sgn, int, frac, exp, hsgn, hint, hfrac, hexp⟩ := h
  have hsgn : sgn = [] ∨ sgn = [ch '-'] ∨ sgn = [ch '+'] := hsgn.imp_right .inl
  obtain ⟨hdigits, hne⟩ := hint.digits_ne
  cases hfrac with
  | none => exact .decimal sgn int exp hsgn hdigits hne hexp
  | some digits hd _ => exact .fraction sgn int digits exp hsgn hdigits hd (.inl hne) hexp

/-! ## Strings -/

/-- A hexadecimal digit. -/
def isHex (c : Byte) : Bool :=
  isDigit c || (ch 'a' ≤ c && c ≤ ch 'f') || (ch 'A' ≤ c && c ≤ ch 'F')

/-- The characters of a JSON string over ASCII. -/
inductive RfcChars : Text → Prop where
  | nil : RfcChars []
  | unescaped (c : Byte) (text : Text) : 32 ≤ c → c < 128 → c ≠ ch '"' → c ≠ ch '\\' →
      RfcChars text → RfcChars (c :: text)
  | escaped (c : Byte) (text : Text) : c ∈ str "\"\\/bfnrt" → RfcChars text →
      RfcChars (ch '\\' :: c :: text)
  | unicode (a b c d : Byte) (text : Text) : isHex a = true → isHex b = true → isHex c = true →
      isHex d = true → RfcChars text → RfcChars (ch '\\' :: ch 'u' :: a :: b :: c :: d :: text)

/-- The characters of a string of the reader: escapes of its table and ASCII characters, control
characters and backslashes that make no escape among them. -/
inductive RelaxedChars : Text → Prop where
  | nil : RelaxedChars []
  | char (c : Byte) (text : Text) : isAscii c = true → c ≠ ch '"' →
      (c = ch '\\' → loneBackslash text = true) → RelaxedChars text → RelaxedChars (c :: text)
  | escape (c : Byte) (text : Text) : (escape c).isSome = true → RelaxedChars text →
      RelaxedChars (ch '\\' :: c :: text)

/-- A character that is no backslash. -/
theorem RelaxedChars.plain {c : Byte} {text : Text} (hascii : isAscii c = true)
    (hquote : c ≠ ch '"')
    (hback : c ≠ ch '\\') (h : RelaxedChars text) : RelaxedChars (c :: text) :=
  .char c text hascii hquote (fun hc => absurd hc hback) h

theorem hex_plain : ∀ c : Byte, isHex c = true →
    isAscii c = true ∧ c ≠ ch '"' ∧ c ≠ ch '\\' := forall_byte (by decide +kernel)

/-- An escape of JSON is one of the table, or a backslash and a character for the reader. -/
theorem escapes_relaxed : ∀ c : Byte, c ∈ str "\"\\/bfnrt" → (escape c).isSome = false →
    isAscii c = true ∧ c ≠ ch '"' ∧ c ≠ ch '\\' ∧ (escape c).isNone = true :=
  forall_byte (by decide +kernel)

theorem relaxed_chars_of_rfc {text : Text} (h : RfcChars text) : RelaxedChars text := by
  induction h with
  | nil => exact .nil
  | unescaped c text _ hascii hquote hback _ ih =>
      exact .plain (decide_eq_true hascii) hquote hback ih
  | escaped c text hc _ ih =>
      cases hesc : (escape c).isSome with
      | true => exact .escape c text hesc ih
      | false =>
          obtain ⟨hascii, hquote, hback, hnone⟩ := escapes_relaxed c hc hesc
          exact .char _ _ (by decide) (by decide) (fun _ => hnone)
            (.plain hascii hquote hback ih)
  | unicode a b c d text ha hb hc hd _ ih =>
      have digit : ∀ {e : Byte} {rest : Text}, isHex e = true → RelaxedChars rest →
          RelaxedChars (e :: rest) := fun he hrest =>
        .plain (hex_plain _ he).1 (hex_plain _ he).2.1 (hex_plain _ he).2.2 hrest
      have hdigits := digit ha (digit hb (digit hc (digit hd ih)))
      exact .char _ _ (by decide) (by decide) (fun _ => rfl)
        (.plain (by decide) (by decide) (by decide) hdigits)

/-! ## The two lexes -/

/-- RFC 8259, over ASCII. -/
def rfc8259 : Lexis where
  number := RfcNumber
  chars := RfcChars
  space c := c == 32 || c == 9 || c == 10 || c == 13

/-- What the reader takes. -/
def relaxed : Lexis where
  number := RelaxedNumber
  chars := RelaxedChars
  space := isSpace

theorem relaxed_extends : relaxed.Extends rfc8259 where
  number _ := relaxed_number_of_rfc
  chars _ := relaxed_chars_of_rfc
  space := forall_byte (by decide +kernel)

/-- Every JSON text is a relaxed one. -/
theorem relaxed_of_rfc {text : Text} (h : JsonText rfc8259 text) : JsonText relaxed text :=
  JsonText.mono relaxed_extends h

end BoostRpc.Json
