import BoostRpc.Json.Acceptance

/-!
# Escapes of JSON strings

What a string literal of RFC 8259 over ASCII denotes, beside what the reader makes of it. The
table of the reader lacks `\/`, `\b`, `\f` and the escapes by number: it reads their backslash as
a character, and its string gets too long (`unescapes_of_denotes`). `escapes_decoded_iff` is the
result for values and keys.
-/

namespace BoostRpc.Json

/-- The two-character escapes, by the character behind the backslash. -/
def rfcEscape (c : Byte) : Option Byte :=
  if c = ch '"' then some (ch '"')
  else if c = ch '\\' then some (ch '\\')
  else if c = ch '/' then some (ch '/')
  else if c = ch 'b' then some 8
  else if c = ch 'f' then some 12
  else if c = ch 'n' then some 10
  else if c = ch 'r' then some 13
  else if c = ch 't' then some 9
  else none

/-- The value of a hexadecimal digit. -/
def hexValue (c : Byte) : Nat :=
  if isDigit c then c.toNat - 48 else if c ≤ ch 'F' then c.toNat - 55 else c.toNat - 87

/-- The number of four hexadecimal digits. -/
def codeUnit (a b c d : Byte) : Nat :=
  hexValue a * 16 ^ 3 + hexValue b * 16 ^ 2 + hexValue c * 16 + hexValue d

/-- The ASCII string that the characters of a string literal denote. -/
inductive Denotes : Text → Text → Prop where
  | nil : Denotes [] []
  | unescaped (c : Byte) (text s : Text) : 32 ≤ c → c < 128 → c ≠ ch '"' → c ≠ ch '\\' →
      Denotes text s → Denotes (c :: text) (c :: s)
  | escaped (c d : Byte) (text s : Text) : rfcEscape c = some d → Denotes text s →
      Denotes (ch '\\' :: c :: text) (d :: s)
  | unicode (a b c d : Byte) (text s : Text) : isHex a = true → isHex b = true → isHex c = true →
      isHex d = true → codeUnit a b c d < 128 → Denotes text s →
      Denotes (ch '\\' :: ch 'u' :: a :: b :: c :: d :: text)
        (UInt8.ofNat (codeUnit a b c d) :: s)

/-- Every backslash that begins an escape stands in front of a quote, a backslash, `n`, `r` or
`t`. -/
def tableEscapes : Text → Bool
  | [] => true
  | [c] => c != ch '\\'
  | c :: d :: text =>
      if c = ch '\\' then (escape d).isSome && tableEscapes text else tableEscapes (d :: text)

theorem table_escapes_plain {c : Byte} (hc : c ≠ ch '\\') (text : Text) :
    tableEscapes (c :: text) = tableEscapes text := by
  cases text with
  | nil => simp [tableEscapes, hc]
  | cons d text => rw [tableEscapes, if_neg hc]

theorem table_escapes_backslash (c : Byte) (text : Text) :
    tableEscapes (ch '\\' :: c :: text) = ((escape c).isSome && tableEscapes text) := by
  rw [tableEscapes, if_pos rfl]

/-! ## What the reader makes of a literal -/

/-- The escapes of the table are those of the grammar. -/
theorem escape_table (c d : Byte) (h : escape c = some d) : rfcEscape c = some d := by
  have same : ∀ b : Byte, (escape b).isSome = true → rfcEscape b = escape b :=
    forall_byte (by decide +kernel)
  rw [same c (by rw [h]; rfl), h]

/-- An escape that the table lacks is a backslash and a character for the reader. -/
theorem escape_missing : ∀ c : Byte, (rfcEscape c).isSome = true → escape c = none →
    isAscii c = true ∧ c ≠ ch '"' ∧ c ≠ ch '\\' := forall_byte (by decide +kernel)

/-- A backslash that makes no escape stands for itself. -/
theorem Unescapes.lone {c : Byte} {text s : Text} (hnone : Json.escape c = none)
    (h : Unescapes (c :: text) s) : Unescapes (ch '\\' :: c :: text) (ch '\\' :: s) :=
  .char (ch '\\') (c :: text) s (by decide) (by decide) (fun _ => by simp [loneBackslash, hnone]) h

/-- The reader makes the string of a literal whose escapes are in the table, and a longer one of
any other literal. -/
theorem unescapes_of_denotes {e s : Text} (h : Denotes e s) :
    ∃ u, Unescapes e u ∧ (tableEscapes e = true → u = s) ∧
      (tableEscapes e = false → s.length < u.length) := by
  have no_shorter : ∀ {e s u : Text}, (tableEscapes e = true → u = s) →
      (tableEscapes e = false → s.length < u.length) → s.length ≤ u.length := by
    intro e s u hsame hlonger
    cases htable : tableEscapes e with
    | true => rw [hsame htable]
    | false => exact Nat.le_of_lt (hlonger htable)
  induction h with
  | nil => exact ⟨[], .nil, fun _ => rfl, fun h => absurd h (by decide)⟩
  | unescaped c text s _ hascii hquote hback _ ih =>
      obtain ⟨u, hu, hsame, hlonger⟩ := ih
      refine ⟨c :: u, hu.plain (decide_eq_true hascii) hquote hback, ?_, ?_⟩
      · rw [table_escapes_plain hback]
        exact fun htable => by rw [hsame htable]
      · rw [table_escapes_plain hback]
        exact fun htable => Nat.succ_lt_succ (hlonger htable)
  | escaped c d text s hesc _ ih =>
      obtain ⟨u, hu, hsame, hlonger⟩ := ih
      rw [table_escapes_backslash]
      cases htable : escape c with
      | some b =>
          obtain rfl : b = d := Option.some.inj ((escape_table c b htable).symm.trans hesc)
          refine ⟨b :: u, .escape c b text u htable hu, fun h => ?_, fun h => ?_⟩
          · rw [hsame (by simpa using h)]
          · exact Nat.succ_lt_succ (hlonger (by simpa using h))
      | none =>
          obtain ⟨hascii, hquote, hback⟩ := escape_missing c (by rw [hesc]; rfl) htable
          refine ⟨ch '\\' :: c :: u, (hu.plain hascii hquote hback).lone htable, by simp,
            fun _ => ?_⟩
          have hlength := no_shorter hsame hlonger
          simp only [List.length_cons]
          omega
  | unicode a b c d text s ha hb hc hd _ _ ih =>
      obtain ⟨u, hu, hsame, hlonger⟩ := ih
      have digit : ∀ {e : Byte} {rest v : Text}, isHex e = true → Unescapes rest v →
          Unescapes (e :: rest) (e :: v) := fun he hrest =>
        hrest.plain (hex_plain _ he).1 (hex_plain _ he).2.1 (hex_plain _ he).2.2
      have hdigits := digit ha (digit hb (digit hc (digit hd hu)))
      have hnone : escape (ch 'u') = none := rfl
      refine ⟨_, (hdigits.plain (by decide) (by decide) (by decide)).lone hnone, ?_, fun _ => ?_⟩
      · rw [table_escapes_backslash, hnone]
        simp
      · have hlength := no_shorter hsame hlonger
        simp only [List.length_cons]
        omega

/-- The reader makes the string of a literal exactly where its escapes are in the table. -/
theorem decoded_iff {e s : Text} (h : Denotes e s) :
    ∃ u, Unescapes e u ∧ (u = s ↔ tableEscapes e = true) := by
  obtain ⟨u, hu, hsame, hlonger⟩ := unescapes_of_denotes h
  refine ⟨u, hu, fun heq => ?_, hsame⟩
  rw [← Bool.not_eq_false]
  intro htable
  exact absurd (hlonger htable) (by simp [heq])

/-! ## Values and keys -/

variable [Platform]

/-- Members in front of a member: none, or some and a comma. -/
def InFront (text : Text) (keys : Object) : Prop :=
  (text = [] ∧ keys = []) ∨ ∃ body, text = body ++ [ch ','] ∧ MeansMembers body keys

/-- Members behind a member: none, or a comma and some. -/
def InBack (text : Text) (keys : Object) : Prop :=
  (text = [] ∧ keys = []) ∨ ∃ body, text = ch ',' :: body ∧ MeansMembers body keys

/-- A member between others. -/
theorem means_between {front member back : Text} {keys others : Object} {entry : Text × Value}
    (hfront : InFront front keys) (h : MeansMembers member [entry]) (hback : InBack back others) :
    MeansMembers (front ++ (member ++ back)) (keys ++ entry :: others) := by
  have hbehind : MeansMembers (member ++ back) (entry :: others) := by
    rcases hback with ⟨rfl, rfl⟩ | ⟨body, rfl, hbody⟩
    · simpa using h
    · exact h.append hbody
  rcases hfront with ⟨rfl, rfl⟩ | ⟨body, rfl, hbody⟩
  · exact hbehind
  · simpa using hbody.append hbehind

/-- A string literal is read as the string that it denotes exactly where all its escapes are in the
table of the reader, as a value and as a key between any other members of an object. -/
theorem escapes_decoded_iff {e s : Text} (h : Denotes e s) :
    (read (quoted e) = .ok (.string s) ↔ tableEscapes e = true) ∧
    ∀ (before middle behind after text front back : Text) (v : Value) (keys others : Object),
      Spaces before → Spaces middle → Spaces behind → Spaces after → Means text v →
      InFront front keys → InBack back others →
      (read (ch '{' :: (front ++ (before ++ (quoted e ++ (middle ++ ch ':' ::
          (behind ++ (text ++ after))))) ++ (back ++ [ch '}']))) =
        .ok (.object (keys ++ (s, v) :: others)) ↔ tableEscapes e = true) := by
  obtain ⟨u, hu, hiff⟩ := decoded_iff h
  constructor
  · have hread := read_means Spaces.nil (.string e u hu) Spaces.nil
    rw [List.nil_append, List.append_nil] at hread
    rw [hread, ← hiff]
    exact ⟨fun heq => Value.string.inj (Except.ok.inj heq), fun heq => by rw [heq]⟩
  · intro before middle behind after text front back v keys others h1 h2 h3 h4 ht hfront hback
    have hmember := MeansMembers.last before e middle behind text after u v h1 hu h2 h3 ht h4
    have hread := read_means Spaces.nil (.object _ _ (means_between hfront hmember hback))
      Spaces.nil
    rw [List.nil_append, List.append_nil, ← List.append_assoc, List.append_assoc _ back] at hread
    rw [hread, ← hiff]
    constructor
    · intro heq
      have hkeys := List.append_cancel_left (Value.object.inj (Except.ok.inj heq))
      exact (Prod.mk.inj (List.cons.inj hkeys).1).1
    · exact fun heq => by rw [heq]

omit [Platform] in
/-- A line feed in a string, and in the only key of an object. -/
theorem escapes_decoded_newline :
    @read (.exact false) (quoted (str "a\\n")) = .ok (.string (ch 'a' :: [10])) ∧
      @read (.exact false) (str "\x7b\"a\\n\":null\x7d") =
        .ok (.object [(ch 'a' :: [10], .null)]) := by
  let _ := Platform.exact false
  have hliteral : Denotes (str "a\\n") (ch 'a' :: [10]) :=
    .unescaped _ _ _ (by decide) (by decide) (by decide) (by decide) (.escaped _ _ _ _ rfl .nil)
  have hdecoded := escapes_decoded_iff hliteral
  have hkey := hdecoded.2 [] [] [] [] (str "null") [] [] .null [] [] Spaces.nil Spaces.nil
    Spaces.nil
    Spaces.nil .null (.inl ⟨rfl, rfl⟩) (.inl ⟨rfl, rfl⟩)
  exact ⟨hdecoded.1.mpr rfl, hkey.mpr rfl⟩

omit [Platform] in
/-- An escape by number and an escaped slash are read as they stand. -/
theorem escape_not_decoded :
    Denotes (str "\\u0041") (str "A") ∧
      @read (.exact false) (quoted (str "\\u0041")) = .ok (.string (str "\\u0041")) ∧
      Denotes (str "\\/") (str "/") ∧
      @read (.exact false) (quoted (str "\\/")) = .ok (.string (str "\\/")) ∧
      str "\\u0041" ≠ str "A" ∧ str "\\/" ≠ str "/" :=
  ⟨.unicode _ _ _ _ _ _ rfl rfl rfl rfl (by decide) .nil, rfl, .escaped _ _ _ _ rfl .nil, rfl,
    by decide, by decide⟩

end BoostRpc.Json
