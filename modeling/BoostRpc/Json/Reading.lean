import BoostRpc.Json.Grammar
import BoostRpc.Json.Printer

/-!
# The terminals of the reader

What the terminals of the grammar make of a text: digits, white space in front of a terminal, the
characters and escapes of strings, and the end of a list.
-/

namespace BoostRpc.Json

open Peg

/-! ## Numerals -/

/-- The text does not go on with a numeral. -/
def Stops (rest : Text) : Prop :=
  ∀ c ∈ rest.head?, isDigit c = false ∧ c ≠ ch '.' ∧ c ≠ ch 'e' ∧ c ≠ ch 'E'

/-- A digit is no sign. -/
theorem digits_unsigned : ∀ c : Byte, isDigit c = true → c ≠ ch '-' ∧ c ≠ ch '+' :=
  forall_byte (by decide +kernel)

theorem digits_no_space : ∀ c : Byte, isDigit c = true → isSpace c = false :=
  forall_byte (by decide +kernel)

/-- A numeral without exponent. -/
theorem exponent_stops {rest : Text} (h : Stops rest) : exponent rest = some (0, rest) := by
  cases rest with
  | nil => rfl
  | cons c rest =>
      obtain ⟨-, -, he, hE⟩ := h c rfl
      simp [exponent, he, hE]

/-! ## Strings -/

/-- An escape begins with a backslash. -/
theorem unesc_char_none {c : Byte} (hc : c ≠ ch '\\') (rest : Text) :
    unescChar (c :: rest) = none := by
  simp [unescChar, symbols, stripPrefix, str, Ne.symm hc]

/-- The table of escapes, by the character behind the backslash. -/
def escape (c : Byte) : Option Byte :=
  if c = ch 'r' then some 13
  else if c = ch '\\' then some (ch '\\')
  else if c = ch 'n' then some 10
  else if c = ch 't' then some 9
  else if c = ch '"' then some (ch '"')
  else none

/-- A backslash in front of the text, and behind the text a quote, is no escape. -/
def loneBackslash : Text → Bool
  | [] => false
  | c :: _ => (escape c).isNone

/-- What `unesc_char` makes of a backslash and a character. -/
theorem unesc_char_backslash (c : Byte) (rest : Text) :
    unescChar (ch '\\' :: c :: rest) = (escape c).map (fun d => (d, rest)) := by
  unfold escape
  split_ifs with hr hb hn ht hq
  · rw [hr]; rfl
  · rw [hb]; rfl
  · rw [hn]; rfl
  · rw [ht]; rfl
  · rw [hq]; rfl
  · simp [unescChar, symbols, stripPrefix, str, Ne.symm hr, Ne.symm hb, Ne.symm hn, Ne.symm ht,
      Ne.symm hq]

/-- A character that makes no escape with those behind it is read as it stands. -/
theorem string_char_plain {c : Byte} {text : Text} (hascii : isAscii c = true)
    (hquote : c ≠ ch '"') (hback : c = ch '\\' → loneBackslash text = true) (rest : Text) :
    stringChar (c :: (text ++ ch '"' :: rest)) = some (c, text ++ ch '"' :: rest) := by
  have hunesc : unescChar (c :: (text ++ ch '"' :: rest)) = none := by
    by_cases hc : c = ch '\\'
    · have hlone := hback hc
      rw [hc]
      cases text with
      | nil => exact absurd hlone (by simp [loneBackslash])
      | cons d text =>
          rw [List.cons_append, unesc_char_backslash, Option.isNone_iff_eq_none.mp hlone]
          rfl
    · exact unesc_char_none hc _
  simp [stringChar, alt, hunesc, satisfy, hascii, hquote]

/-- The end of a string, and a byte outside ASCII, is no character of it. -/
theorem string_char_none {c : Byte} (h : c = ch '"' ∨ isAscii c = false) (rest : Text) :
    stringChar (c :: rest) = none := by
  have hback : c ≠ ch '\\' := by
    rintro rfl
    rcases h with h | h
    · exact absurd h (by decide)
    · exact absurd h (by decide)
  rcases h with rfl | h
  · simp [stringChar, alt, unesc_char_none, satisfy]
  · simp [stringChar, alt, unesc_char_none hback, satisfy, h]

/-- An escape. -/
theorem string_char_escape {c d : Byte} (h : escape c = some d) (rest : Text) :
    stringChar (ch '\\' :: c :: rest) = some (d, rest) := by
  simp [stringChar, alt, unesc_char_backslash, h]

/-! ## White space -/

/-- A terminal skips white space. -/
theorem token_spaces {α : Type} (p : Parser Byte α) {space : Text} (hs : Spaces space)
    (input : Text) : token p (space ++ input) = token p input := by
  show p ((space ++ input).dropWhile isSpace) = p (input.dropWhile isSpace)
  rw [List.dropWhile_append_of_pos hs]

theorem seq_token_spaces {α β : Type} (p : Parser Byte α) (q : Parser Byte β) {space : Text}
    (hs : Spaces space) (input : Text) :
    seq (token p) q (space ++ input) = seq (token p) q input := by
  simp only [seq, token_spaces p hs]

theorem unesc_str_spaces {space : Text} (hs : Spaces space) (input : Text) :
    unescStr (space ++ input) = unescStr input := token_spaces _ hs input

theorem keyval_r_spaces (json : Parser Byte Value) {space : Text} (hs : Spaces space)
    (input : Text) : keyvalR json (space ++ input) = keyvalR json input := by
  simp only [keyvalR, map, seq, unesc_str_spaces hs]

/-- Every alternative of `json_r` begins with a terminal. -/
theorem json_r_spaces [Platform] {space : Text} (hs : Spaces space) (input : Text) :
    jsonR (space ++ input) = jsonR input := by
  rw [json_r_eq, json_r_eq]
  simp only [jsonBody, alt, map, token_spaces _ hs, unesc_str_spaces hs, objectR, arrayR,
    emptyArrayR, emptyObjectR, seq_token_spaces _ _ hs]

/-! ## The end of a list -/

/-- The bracket behind an element is no separator. -/
theorem no_separator {α : Type} (p : Parser Byte α) {after : Text} (ha : Spaces after) {c : Char}
    (hc : c = ']' ∨ c = '}') (rest : Text) :
    many (map Prod.snd (seq (token (lit ',')) p)) (after ++ ch c :: rest) =
      some ([], after ++ ch c :: rest) := by
  have hcomma : token (lit ',') (ch c :: rest) = none := by rcases hc with rfl | rfl <;> rfl
  refine many_none ?_
  simp only [map, seq, token_spaces _ ha, hcomma, Option.map_none]

end BoostRpc.Json
