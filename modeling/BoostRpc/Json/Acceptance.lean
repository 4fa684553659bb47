import BoostRpc.Json.Nesting
import BoostRpc.Json.Meaning

/-!
# What the reader accepts

`reads_means` shows that the start rule takes every relaxed JSON text to what it means, up to white
space, a comma or a closing bracket behind it; `takes_means` that whatever it takes is a text of
its result behind white space. Together they decide what `read` accepts.
-/

namespace BoostRpc.Json

open Peg

/-! ## What follows a value -/

/-- What may follow a value in a text: nothing, white space, a comma or a closing bracket. -/
def Behind (rest : Text) : Prop := ∀ c ∈ rest.head?,
  isSpace c = true ∨ c = ch ',' ∨ c = ch ']' ∨ c = ch '}'

theorem Behind.nil : Behind [] := fun _ hc => absurd hc (by simp)

theorem Behind.cons {c : Byte} (rest : Text)
    (h : isSpace c = true ∨ c = ch ',' ∨ c = ch ']' ∨ c = ch '}') : Behind (c :: rest) := by
  intro d hd
  obtain rfl : c = d := by simpa using hd
  exact h

/-- White space in front changes nothing. -/
theorem Behind.spaces {space rest : Text} (hs : Spaces space) (h : Behind rest) :
    Behind (space ++ rest) := by
  cases space with
  | nil => exact h
  | cons c space => exact .cons _ (.inl (hs c List.mem_cons_self))

/-- A byte that no numeral goes on with. -/
theorem behind_byte : ∀ c : Byte, (isSpace c = true ∨ c = ch ',' ∨ c = ch ']' ∨ c = ch '}') →
    isDigit c = false ∧ c ≠ ch '.' ∧ c ≠ ch 'e' ∧ c ≠ ch 'E' ∧ c ≠ ch '(' ∧ c ≠ ch 'i' ∧
      c ≠ ch 'I' := forall_byte (by decide +kernel)

theorem Behind.stops {rest : Text} (h : Behind rest) : Stops rest := by
  intro c hc
  obtain ⟨hdigit, hpoint, he, hE, -⟩ := behind_byte c (h c hc)
  exact ⟨hdigit, hpoint, he, hE⟩

/-! ## Numerals -/

/-- The sign is what stands in front of a byte that is none. -/
theorem sign_append {sgn : Text} {negative : Bool} (h : SignOf sgn negative) {c : Byte}
    (hminus : c ≠ ch '-') (hplus : c ≠ ch '+') (rest : Text) :
    sign (sgn ++ c :: rest) = (negative, c :: rest) := by
  cases h with
  | none => simp [sign, hminus, hplus]
  | minus => rfl
  | plus => rfl

/-- What stands in front of what `sign` leaves. -/
theorem sign_eq (input : Text) :
    ∃ sgn, SignOf sgn (sign input).1 ∧ input = sgn ++ (sign input).2 := by
  cases input with
  | nil => exact ⟨[], .none, rfl⟩
  | cons c rest =>
      simp only [sign]
      split_ifs with hminus hplus
      · exact ⟨[ch '-'], .minus, by rw [hminus]; rfl⟩
      · exact ⟨[ch '+'], .plus, by rw [hplus]; rfl⟩
      · exact ⟨[], .none, rfl⟩

/-- `noCase` takes the word in either case. -/
theorem no_case_append {lower upper word : Text} (h : AnyCase lower upper word) (rest : Text) :
    noCase lower upper (word ++ rest) = some ((), rest) := by
  induction lower generalizing upper word with
  | nil =>
      cases upper with
      | nil =>
          cases word with
          | nil => simp [noCase]
          | cons c word => exact absurd h id
      | cons u upper => exact absurd h id
  | cons l lower ih =>
      cases upper with
      | nil => exact absurd h id
      | cons u upper =>
          cases word with
          | nil => exact absurd h id
          | cons c word =>
              simp only [List.cons_append, noCase, if_pos h.1]
              exact ih h.2

/-- What `noCase` takes is the word in either case. -/
theorem no_case_takes {lower upper input rest : Text}
    (h : noCase lower upper input = some ((), rest)) (hlength : lower.length = upper.length) :
    ∃ word, input = word ++ rest ∧ AnyCase lower upper word := by
  induction lower generalizing upper input with
  | nil =>
      obtain rfl := List.eq_nil_of_length_eq_zero hlength.symm
      have hnil : noCase [] [] input = some ((), input) := by simp [noCase]
      obtain ⟨-, rfl⟩ := Prod.mk.inj (Option.some.inj (hnil.symm.trans h))
      exact ⟨[], rfl, trivial⟩
  | cons l lower ih =>
      cases upper with
      | nil => exact absurd hlength (by simp)
      | cons u upper =>
          cases input with
          | nil => exact absurd h (by simp [noCase])
          | cons c input =>
              simp only [noCase] at h
              split at h
              · rename_i hc
                obtain ⟨word, rfl, hword⟩ := ih h (Nat.succ.inj hlength)
                exact ⟨c :: word, rfl, hc, hword⟩
              · exact absurd h (by simp)

/-- The first letter of a word in either case. -/
theorem AnyCase.cons {l u : Byte} {lower upper word : Text}
    (h : AnyCase (l :: lower) (u :: upper) word) :
    ∃ c tail, word = c :: tail ∧ (c = l ∨ c = u) := by
  match word with
  | c :: tail => exact ⟨c, tail, rfl, h.1⟩

/-- A byte behind which nothing is read as `inity`. -/
theorem no_case_behind {rest : Text} (h : Behind rest) :
    noCase (str "inity") (str "INITY") rest = none := by
  cases rest with
  | nil => rfl
  | cons c rest =>
      obtain ⟨-, -, -, -, -, hi, hI⟩ := behind_byte c (h c rfl)
      exact if_neg (fun hor => hor.elim hi hI)

/-- `nan` with its payload. -/
theorem parse_nan_append {word payload rest : Text} (hword : AnyCase (str "nan") (str "NAN") word)
    (hpayload : NanPayload payload) (hrest : Behind rest) :
    parseNan (word ++ (payload ++ rest)) = some rest := by
  unfold parseNan
  rw [no_case_append hword]
  cases hpayload with
  | none =>
      cases rest with
      | nil => rfl
      | cons c rest =>
          obtain ⟨-, -, -, -, hparen, -⟩ := behind_byte c (hrest c rfl)
          exact if_neg hparen
  | some body hbody =>
      have hdrop : (body ++ ch ')' :: rest).dropWhile (· != ch ')') = ch ')' :: rest := by
        rw [List.dropWhile_append_of_pos]
        · exact List.dropWhile_cons_of_neg (by simp)
        · intro c hc
          have hne : c ≠ ch ')' := fun he => hbody (he ▸ hc)
          simpa using hne
      simp [hdrop]

theorem parse_inf_append {word tail rest : Text} (hword : AnyCase (str "inf") (str "INF") word)
    (htail : tail = [] ∨ AnyCase (str "inity") (str "INITY") tail) (hrest : Behind rest) :
    parseInf (word ++ (tail ++ rest)) = some rest := by
  unfold parseInf
  rw [no_case_append hword]
  rcases htail with rfl | htail
  · simp only [List.nil_append, no_case_behind hrest]
  · simp only [no_case_append htail]

/-- An exponent, or none. -/
theorem exponent_append {exp rest : Text} {e : Int} (h : ExponentOf exp e) (hrest : Behind rest) :
    exponent (exp ++ rest) = some (e, rest) := by
  cases h with
  | none => exact exponent_stops hrest.stops
  | some c sgn digits negative hc hsgn hdigits hne =>
      obtain ⟨d, ds, rfl⟩ := List.exists_cons_of_ne_nil hne
      have hdigit : isDigit d = true := hdigits d List.mem_cons_self
      have hsign := sign_append hsgn (digits_unsigned d hdigit).1 (digits_unsigned d hdigit).2
        (ds ++ rest)
      have hstop : ∀ c ∈ rest.head?, isDigit c = false := fun c hc => (hrest.stops c hc).1
      have htake := take_while_append hdigits hstop
      have hdrop := drop_while_append hdigits hstop
      rw [List.cons_append] at htake hdrop
      rw [List.cons_append, List.append_assoc, List.cons_append]
      simp [exponent, hc, hsign, htake, hdrop]

variable [Platform]

/-- A special numeral behind a sign. -/
theorem double_special {input unsigned rest : Text} {negative : Bool} {x : Double}
    (hsign : sign input = (negative, unsigned)) (hint : unsigned.takeWhile isDigit = [])
    (hspecial : parseNanOrInf negative unsigned = some (x, rest)) :
    double_ input = some (x, rest) := by
  simp only [double_, hsign, hint, if_true, hspecial]

/-- A numeral of digits behind a sign. -/
theorem double_digits {input int behind frac middle rest : Text} {negative : Bool} {e : Int}
    (hsign : sign input = (negative, int ++ behind)) (hint : Digits int)
    (hbehind : ∀ c ∈ behind.head?, isDigit c = false)
    (hspecial : int = [] → parseNanOrInf negative behind = none)
    (hfrac : fraction (!int.isEmpty) behind = some (frac, middle))
    (hexp : exponent middle = some (e, rest)) :
    double_ input = some (Platform.ofNumeral (numeralValue negative int frac e), rest) := by
  have hnone : (if int = [] then parseNanOrInf negative (int ++ behind) else none) = none := by
    split_ifs with hnil
    · rw [hnil]
      exact hspecial hnil
    · rfl
  simp only [double_, hsign, take_while_append hint hbehind, drop_while_append hint hbehind, hnone,
    hfrac, hexp]

omit [Platform] in
/-- No point behind the digits. -/
theorem fraction_none {input : Text} (h : ∀ c ∈ input.head?, c ≠ ch '.') :
    fraction true input = some ([], input) := by
  cases input with
  | nil => rfl
  | cons c input => simp [fraction, h c rfl]

omit [Platform] in
/-- What stands behind the digits of a numeral is no digit and no point. -/
theorem exponent_head {exp rest : Text} (h : ExponentText exp) (hrest : Behind rest) :
    ∀ c ∈ (exp ++ rest).head?, isDigit c = false ∧ c ≠ ch '.' := by
  cases h with
  | none => exact fun c hc => ⟨(hrest.stops c hc).1, (hrest.stops c hc).2.1⟩
  | some d sgn digits hd hsgn hdigits hne =>
      intro c hc
      obtain rfl : d = c := by simpa using hc
      rcases hd with rfl | rfl <;> decide

omit [Platform] in
/-- A letter is no digit and no sign. -/
theorem letter_byte {l u c : Byte} (hc : c = l ∨ c = u)
    (hl : isDigit l = false ∧ l ≠ ch '-' ∧ l ≠ ch '+')
    (hu : isDigit u = false ∧ u ≠ ch '-' ∧ u ≠ ch '+') :
    isDigit c = false ∧ c ≠ ch '-' ∧ c ≠ ch '+' := by
  rcases hc with rfl | rfl
  · exact hl
  · exact hu

/-- Every numeral is read up to its end. -/
theorem double_append {text rest : Text} {x : Double} (h : NumeralOf text x)
    (hrest : Behind rest) : double_ (text ++ rest) = some (x, rest) := by
  cases h with
  | nan sgn word payload negative hsgn hword hpayload =>
      have hparse := parse_nan_append hword hpayload hrest
      obtain ⟨c, tail, rfl, hc⟩ := hword.cons
      obtain ⟨hdigit, hminus, hplus⟩ := letter_byte hc (by decide) (by decide)
      have hsign := sign_append hsgn hminus hplus (tail ++ (payload ++ rest))
      refine double_special (by simpa using hsign) ?_ ?_
      · exact List.takeWhile_cons_of_neg (by simp [hdigit])
      · rw [List.cons_append] at hparse
        simp only [parseNanOrInf, hparse]
  | infinity sgn word tail negative hsgn hword htail =>
      have hparse := parse_inf_append hword htail hrest
      obtain ⟨c, letters, rfl, hc⟩ := hword.cons
      obtain ⟨hdigit, hminus, hplus⟩ := letter_byte hc (by decide) (by decide)
      have hsign := sign_append hsgn hminus hplus (letters ++ (tail ++ rest))
      refine double_special (by simpa using hsign) ?_ ?_
      · exact List.takeWhile_cons_of_neg (by simp [hdigit])
      · have hnan : parseNan (c :: (letters ++ (tail ++ rest))) = none := by
          rcases hc with rfl | rfl <;> rfl
        rw [List.cons_append] at hparse
        simp only [parseNanOrInf, hnan, hparse, Option.map_some]
  | decimal sgn int exp negative e hsgn hint hne hexp =>
      obtain ⟨c, digits, rfl⟩ := List.exists_cons_of_ne_nil hne
      have hunsigned := digits_unsigned c (hint c List.mem_cons_self)
      have hsign := sign_append hsgn hunsigned.1 hunsigned.2 (digits ++ (exp ++ rest))
      have hhead := exponent_head hexp.text hrest
      exact double_digits (by simpa using hsign) hint (fun d hd => (hhead d hd).1)
        (fun hnil => absurd hnil hne) (fraction_none fun d hd => (hhead d hd).2)
        (exponent_append hexp hrest)
  | fraction sgn int frac exp negative e hsgn hint hfrac hne hexp =>
      have hhead := exponent_head hexp.text hrest
      have hfraction : fraction (!int.isEmpty) (ch '.' :: (frac ++ (exp ++ rest))) =
          some (frac, exp ++ rest) := by
        have htake := take_while_append hfrac fun d hd => (hhead d hd).1
        have hdrop := drop_while_append hfrac fun d hd => (hhead d hd).1
        cases int with
        | nil =>
            have hfracne : frac ≠ [] := hne.resolve_left (fun h => h rfl)
            simp [fraction, htake, hdrop, hfracne]
        | cons c int => simp [fraction, htake, hdrop]
      have hpoint : ∀ d ∈ (ch '.' :: (frac ++ (exp ++ rest))).head?, isDigit d = false := by
        intro d hd
        obtain rfl : ch '.' = d := by simpa using hd
        decide
      have hsplit : sgn ++ (int ++ ch '.' :: (frac ++ exp)) ++ rest =
          sgn ++ (int ++ ch '.' :: (frac ++ (exp ++ rest))) := by simp
      have hsign : sign (sgn ++ (int ++ ch '.' :: (frac ++ (exp ++ rest)))) =
          (negative, int ++ ch '.' :: (frac ++ (exp ++ rest))) := by
        cases int with
        | nil => exact sign_append hsgn (by decide) (by decide) _
        | cons c digits =>
            have hunsigned := digits_unsigned c (hint c List.mem_cons_self)
            exact sign_append hsgn hunsigned.1 hunsigned.2 _
      rw [hsplit]
      exact double_digits hsign hint hpoint (fun _ => rfl) hfraction (exponent_append hexp hrest)

omit [Platform] in
/-- A numeral does not begin with white space. -/
theorem relaxed_number_head {text : Text} (h : RelaxedNumber text) :
    ∃ c tail, text = c :: tail ∧ isSpace c = false := by
  have signed : ∀ {sgn body : Text}, sgn = [] ∨ sgn = [ch '-'] ∨ sgn = [ch '+'] →
      (∃ c tail, body = c :: tail ∧ isSpace c = false) →
      ∃ c tail, sgn ++ body = c :: tail ∧ isSpace c = false := by
    intro sgn body hsgn hbody
    rcases hsgn with rfl | rfl | rfl
    · exact hbody
    · exact ⟨_, _, rfl, by decide⟩
    · exact ⟨_, _, rfl, by decide⟩
  cases h with
  | nan sgn word payload hsgn hword hpayload =>
      obtain ⟨c, tail, rfl, hc⟩ := hword.cons
      exact signed hsgn ⟨c, _, rfl, by rcases hc with rfl | rfl <;> decide⟩
  | infinity sgn word tail hsgn hword htail =>
      obtain ⟨c, letters, rfl, hc⟩ := hword.cons
      exact signed hsgn ⟨c, _, rfl, by rcases hc with rfl | rfl <;> decide⟩
  | decimal sgn int exp hsgn hint hne hexp =>
      obtain ⟨c, digits, rfl⟩ := List.exists_cons_of_ne_nil hne
      exact signed hsgn ⟨c, _, rfl, digits_no_space c (hint c List.mem_cons_self)⟩
  | fraction sgn int frac exp hsgn hint hfrac hne hexp =>
      apply signed hsgn
      cases int with
      | nil => exact ⟨ch '.', _, rfl, by decide⟩
      | cons c digits => exact ⟨c, _, rfl, digits_no_space c (hint c List.mem_cons_self)⟩

/-! ## Reading a text -/

omit [Platform] in
/-- The characters of a string are read up to the quote. -/
theorem chars_append {text s : Text} (h : Unescapes text s) (rest : Text) :
    many stringChar (text ++ ch '"' :: rest) = some (s, ch '"' :: rest) := by
  induction h with
  | nil => exact many_none (string_char_none (.inl rfl) rest)
  | char c text s hascii hquote hback _ ih =>
      exact many_some string_char_progresses (string_char_plain hascii hquote hback rest) ih
  | escape c d text s hc _ ih =>
      exact many_some string_char_progresses (string_char_escape hc _) ih

omit [Platform] in
theorem string_append {text s : Text} (h : Unescapes text s) (rest : Text) :
    unescStr (quoted text ++ rest) = some (s, rest) := by
  have hquoted : quoted text ++ rest = ch '"' :: (text ++ ch '"' :: rest) := by simp [quoted]
  have hopen : lit '"' (ch '"' :: (text ++ ch '"' :: rest)) =
      some (ch '"', text ++ ch '"' :: rest) := rfl
  have hclose : lit '"' (ch '"' :: rest) = some (ch '"', rest) := rfl
  have hskip : ∀ (p : Parser Byte Text) (input : Text),
      token p (ch '"' :: input) = p (ch '"' :: input) := fun _ _ => rfl
  rw [hquoted, unescStr, hskip]
  simp only [map, seq, hopen, chars_append h, hclose, Option.map_some]

/-- A key, the colon and the value behind it, with any white space between them. -/
theorem keyval_append {key name middle behind text rest : Text} {v : Value}
    (hkey : Unescapes key name) (hmiddle : Spaces middle) (hbehind : Spaces behind)
    (hval : jsonR text = some (v, rest)) :
    keyvalR jsonR (quoted key ++ (middle ++ ch ':' :: (behind ++ text))) =
      some ((name, v), rest) := by
  have hs := string_append hkey (middle ++ ch ':' :: (behind ++ text))
  have hcolon : token (lit ':') (middle ++ ch ':' :: (behind ++ text)) =
      some (ch ':', behind ++ text) := by
    rw [token_spaces _ hmiddle]
    rfl
  have hvalue : jsonR (behind ++ text) = some (v, rest) := by rw [json_r_spaces hbehind, hval]
  simp only [keyvalR, map, seq, hs, hcolon, hvalue, Option.map_some]

omit [Platform] in
/-- The comma behind white space. -/
theorem comma_append {space : Text} (hs : Spaces space) (rest : Text) :
    token (lit ',') (space ++ ch ',' :: rest) = some (ch ',', rest) := by
  rw [token_spaces _ hs]
  rfl

mutual
/-- `json_r` reads every relaxed text up to its end, as what it means. Only a numeral could go on
behind it. -/
theorem reads_means {text : Text} {v : Value} : Means text v → ∀ {rest : Text},
    (∀ x, v = .number x → Behind rest) → jsonR (text ++ rest) = some (v, rest)
  | .null, rest, _ => by
      rw [json_r_eq]
      rfl
  | .bool b, rest, _ => by
      rw [json_r_eq]
      cases b <;> rfl
  | .number text x hn, rest, hrest => by
      have hx := double_append hn (hrest x rfl)
      obtain ⟨c, tail, rfl, hc⟩ := relaxed_number_head hn.text
      have htoken : token double_ (c :: tail ++ rest) = some (x, rest) := by
        show double_ ((c :: tail ++ rest).dropWhile isSpace) = _
        rw [List.cons_append, List.dropWhile_cons_of_neg (by simp [hc])]
        exact hx
      rw [json_r_eq]
      simp only [jsonBody, alt, map, htoken, Option.map_some]
  | .string text s hc, rest, _ => by
      have hs := string_append hc rest
      have hdouble : token double_ (quoted text ++ rest) = none := rfl
      have hbool : token bool_ (quoted text ++ rest) = none := rfl
      rw [json_r_eq]
      simp only [jsonBody, alt, map, hdouble, hbool, hs, Option.map_some, Option.map_none]
  | .emptyObject space hs, rest, _ => by
      have hsplit : ch '{' :: (space ++ [ch '}']) ++ rest =
          ch '{' :: (space ++ ch '}' :: rest) := by simp
      have hopen : token (lit '{') (ch '{' :: (space ++ ch '}' :: rest)) =
          some (ch '{', space ++ ch '}' :: rest) := rfl
      have hkeyval : keyvalR jsonR (space ++ ch '}' :: rest) = none := by
        rw [keyval_r_spaces _ hs]
        rfl
      have hobject : objectR jsonR (ch '{' :: (space ++ ch '}' :: rest)) = none := by
        simp only [objectR, map, seq, hopen, list, hkeyval, Option.map_none]
      have hempty : emptyObjectR (ch '{' :: (space ++ ch '}' :: rest)) = some ([], rest) := by
        have hspaces : token eps (space ++ ch '}' :: rest) = some ((), ch '}' :: rest) := by
          rw [token_spaces _ hs]
          rfl
        have hclose : token (lit '}') (ch '}' :: rest) = some (ch '}', rest) := rfl
        simp only [emptyObjectR, map, seq, hopen, hspaces, hclose, Option.map_some]
      have hearlier : jsonBody jsonR (ch '{' :: (space ++ ch '}' :: rest)) =
          alt (map .object (objectR jsonR)) (map .object emptyObjectR)
            (ch '{' :: (space ++ ch '}' :: rest)) := rfl
      rw [hsplit, json_r_eq, hearlier]
      simp only [alt, map, hobject, hempty, Option.map_none, Option.map_some]
  | .object body keys hbody, rest, _ => by
      obtain ⟨after, ha, hlist⟩ := reads_members hbody rest
      have hsplit : ch '{' :: (body ++ [ch '}']) ++ rest =
          ch '{' :: (body ++ ch '}' :: rest) := by simp
      rw [hsplit, json_r_eq]
      generalize body ++ ch '}' :: rest = input at hlist ⊢
      have hdouble : token double_ (ch '{' :: input) = none := rfl
      have hbool : token bool_ (ch '{' :: input) = none := rfl
      have hstring : unescStr (ch '{' :: input) = none := rfl
      have hopen : token (lit '{') (ch '{' :: input) = some (ch '{', input) := rfl
      have hclose : token (lit '}') (after ++ ch '}' :: rest) = some (ch '}', rest) := by
        rw [token_spaces _ ha]
        rfl
      simp only [jsonBody, alt, map, hdouble, hbool, hstring, objectR, seq, hopen, hlist, hclose,
        Option.map_some, Option.map_none]
  | .emptyArray space hs, rest, _ => by
      have hsplit : ch '[' :: (space ++ [ch ']']) ++ rest =
          ch '[' :: (space ++ ch ']' :: rest) := by simp
      have hopen : token (lit '[') (ch '[' :: (space ++ ch ']' :: rest)) =
          some (ch '[', space ++ ch ']' :: rest) := rfl
      have hvals : jsonR (space ++ ch ']' :: rest) = none := by
        rw [json_r_spaces hs, json_r_eq]
        rfl
      have harray : arrayR jsonR (ch '[' :: (space ++ ch ']' :: rest)) = none := by
        simp only [arrayR, map, seq, hopen, list, hvals, Option.map_none]
      have hempty : emptyArrayR (ch '[' :: (space ++ ch ']' :: rest)) = some ([], rest) := by
        have hspaces : token eps (space ++ ch ']' :: rest) = some ((), ch ']' :: rest) := by
          rw [token_spaces _ hs]
          rfl
        have hclose : token (lit ']') (ch ']' :: rest) = some (ch ']', rest) := rfl
        simp only [emptyArrayR, map, seq, hopen, hspaces, hclose, Option.map_some]
      have hearlier : jsonBody jsonR (ch '[' :: (space ++ ch ']' :: rest)) =
          alt (map .array (arrayR jsonR)) (map .array emptyArrayR)
            (ch '[' :: (space ++ ch ']' :: rest)) := by
        unfold jsonBody
        simp only [alt, map, harray, hempty, Option.map_none, Option.map_some]
        rfl
      rw [hsplit, json_r_eq, hearlier]
      simp only [alt, map, harray, hempty, Option.map_none, Option.map_some]
  | .array body vals hbody, rest, _ => by
      obtain ⟨after, ha, hlist⟩ := reads_elements hbody rest
      have hsplit : ch '[' :: (body ++ [ch ']']) ++ rest =
          ch '[' :: (body ++ ch ']' :: rest) := by simp
      rw [hsplit, json_r_eq]
      generalize body ++ ch ']' :: rest = input at hlist ⊢
      have hdouble : token double_ (ch '[' :: input) = none := rfl
      have hbool : token bool_ (ch '[' :: input) = none := rfl
      have hstring : unescStr (ch '[' :: input) = none := rfl
      have hobject : objectR jsonR (ch '[' :: input) = none := rfl
      have hopen : token (lit '[') (ch '[' :: input) = some (ch '[', input) := rfl
      have hclose : token (lit ']') (after ++ ch ']' :: rest) = some (ch ']', rest) := by
        rw [token_spaces _ ha]
        rfl
      simp only [jsonBody, alt, map, hdouble, hbool, hstring, hobject, arrayR, seq, hopen, hlist,
        hclose, Option.map_some, Option.map_none]

/-- The members of an object are read up to the bracket. -/
theorem reads_members {body : Text} {keys : Object} : MeansMembers body keys → ∀ rest : Text,
    ∃ after, Spaces after ∧ list (keyvalR jsonR) (token (lit ',')) (body ++ ch '}' :: rest) =
      some (keys, after ++ ch '}' :: rest)
  | .last before key middle behind text after name v h1 hk h2 h3 ht h4, rest => by
      have hbracket : Behind (ch '}' :: rest) := .cons rest (.inr (.inr (.inr rfl)))
      have hentry := keyval_append hk h2 h3 (reads_means ht fun _ _ => hbracket.spaces h4)
      have hpair : keyvalR jsonR (before ++ (quoted key ++ (middle ++ ch ':' ::
          (behind ++ (text ++ (after ++ ch '}' :: rest)))))) =
            some ((name, v), after ++ ch '}' :: rest) := by
        rw [keyval_r_spaces _ h1, hentry]
      refine ⟨after, h4, ?_⟩
      simpa using list_some hpair (no_separator _ h4 (Or.inr rfl) rest)
  | .cons before key middle behind text after body name v keys h1 hk h2 h3 ht h4 hbody, rest => by
      obtain ⟨last, hlast, hlist⟩ := reads_members hbody rest
      have hcomma : Behind (ch ',' :: (body ++ ch '}' :: rest)) := .cons _ (.inr (.inl rfl))
      have hentry := keyval_append hk h2 h3 (reads_means ht fun _ _ => hcomma.spaces h4)
      have hpair : keyvalR jsonR (before ++ (quoted key ++ (middle ++ ch ':' ::
          (behind ++ (text ++ (after ++ ch ',' :: (body ++ ch '}' :: rest))))))) =
            some ((name, v), after ++ ch ',' :: (body ++ ch '}' :: rest)) := by
        rw [keyval_r_spaces _ h1, hentry]
      have hothers := many_of_list (lit_progresses ',')
        (keyval_r_local.non_growing _ (fix_non_growing json_body_guarded))
        (comma_append h4 (body ++ ch '}' :: rest)) hlist
      refine ⟨last, hlast, ?_⟩
      simpa using list_some hpair hothers

/-- The elements of an array are read up to the bracket. -/
theorem reads_elements {body : Text} {vals : List Value} : MeansElements body vals →
    ∀ rest : Text, ∃ after, Spaces after ∧
      list jsonR (token (lit ',')) (body ++ ch ']' :: rest) = some (vals, after ++ ch ']' :: rest)
  | .last before text after v h1 ht h2, rest => by
      have hbehind : Behind (ch ']' :: rest) := .cons rest (.inr (.inr (.inl rfl)))
      have hv := reads_means ht fun _ _ => hbehind.spaces h2
      have helement : jsonR (before ++ (text ++ (after ++ ch ']' :: rest))) =
          some (v, after ++ ch ']' :: rest) := by
        rw [json_r_spaces h1, hv]
      refine ⟨after, h2, ?_⟩
      simpa using list_some helement (no_separator _ h2 (Or.inl rfl) rest)
  | .cons before text after body v vals h1 ht h2 hbody, rest => by
      obtain ⟨last, hlast, hlist⟩ := reads_elements hbody rest
      have hcomma : Behind (ch ',' :: (body ++ ch ']' :: rest)) := .cons _ (.inr (.inl rfl))
      have hv := reads_means ht fun _ _ => hcomma.spaces h2
      have helement : jsonR (before ++ (text ++ (after ++ ch ',' :: (body ++ ch ']' :: rest)))) =
          some (v, after ++ ch ',' :: (body ++ ch ']' :: rest)) := by
        rw [json_r_spaces h1, hv]
      have hothers := many_of_list (lit_progresses ',') (fix_non_growing json_body_guarded)
        (comma_append h2 (body ++ ch ']' :: rest)) hlist
      refine ⟨last, hlast, ?_⟩
      simpa using list_some helement hothers
end

/-! ## What a numeral takes -/

omit [Platform] in
theorem nan_takes {input rest : Text} (h : parseNan input = some rest) :
    ∃ word payload, input = word ++ (payload ++ rest) ∧ AnyCase (str "nan") (str "NAN") word ∧
      NanPayload payload := by
  unfold parseNan at h
  split at h
  · exact absurd h (by simp)
  · rename_i hword
    obtain rfl := Option.some.inj h
    obtain ⟨word, hin, hcase⟩ := no_case_takes hword (by simp [str])
    exact ⟨word, [], hin, hcase, .none⟩
  · rename_i u c tail hword
    obtain ⟨word, hin, hcase⟩ := no_case_takes hword (by simp [str])
    split at h
    · rename_i hparen
      split at h
      · exact absurd h (by simp)
      · rename_i d behind hdrop
        obtain rfl := Option.some.inj h
        have hd : d = ch ')' := by
          have hhead := List.head_dropWhile_not (fun c => c != ch ')') (l := tail) (by simp [hdrop])
          simpa [hdrop] using hhead
        have hsplit : tail = tail.takeWhile (· != ch ')') ++ d :: behind := by
          rw [← hdrop, List.takeWhile_append_dropWhile]
        refine ⟨word, ch '(' :: (tail.takeWhile (· != ch ')') ++ [ch ')']), ?_, hcase, ?_⟩
        · rw [hin, hparen]
          conv_lhs => rw [hsplit, hd]
          simp
        · refine .some _ fun hmem => ?_
          simpa using List.mem_takeWhile_imp hmem
    · obtain rfl := Option.some.inj h
      exact ⟨word, [], hin, hcase, .none⟩

omit [Platform] in
theorem inf_takes {input rest : Text} (h : parseInf input = some rest) :
    ∃ word tail, input = word ++ (tail ++ rest) ∧ AnyCase (str "inf") (str "INF") word ∧
      (tail = [] ∨ AnyCase (str "inity") (str "INITY") tail) := by
  unfold parseInf at h
  split at h
  · exact absurd h (by simp)
  · rename_i u middle hword
    obtain ⟨word, hin, hcase⟩ := no_case_takes hword (by simp [str])
    split at h
    · rename_i u' behind hword'
      obtain rfl := Option.some.inj h
      obtain ⟨tail, rfl, htail⟩ := no_case_takes hword' (by simp [str])
      exact ⟨word, tail, hin, hcase, .inr htail⟩
    · obtain rfl := Option.some.inj h
      exact ⟨word, [], hin, hcase, .inl rfl⟩

omit [Platform] in
/-- The digits in front. -/
theorem digits_take_while (input : Text) : Digits (input.takeWhile isDigit) :=
  fun _ hc => List.mem_takeWhile_imp hc

omit [Platform] in
theorem fraction_takes {got : Bool} {input frac rest : Text}
    (h : fraction got input = some (frac, rest)) :
    (input = rest ∧ frac = [] ∧ got = true) ∨
      (input = ch '.' :: (frac ++ rest) ∧ Digits frac ∧ (got = true ∨ frac ≠ [])) := by
  cases input with
  | nil =>
      simp only [fraction] at h
      split at h
      · rename_i hgot
        obtain ⟨rfl, rfl⟩ := Prod.mk.inj (Option.some.inj h)
        exact .inl ⟨rfl, rfl, hgot⟩
      · exact absurd h (by simp)
  | cons c input =>
      simp only [fraction] at h
      split at h
      · rename_i hpoint
        split at h
        · exact absurd h (by simp)
        · rename_i hsome
          obtain ⟨rfl, rfl⟩ := Prod.mk.inj (Option.some.inj h)
          refine .inr ⟨?_, digits_take_while input, ?_⟩
          · rw [List.takeWhile_append_dropWhile, hpoint]
          · cases got with
            | true => exact .inl rfl
            | false => exact .inr fun hnil => hsome ⟨hnil, rfl⟩
      · split at h
        · rename_i hgot
          obtain ⟨rfl, rfl⟩ := Prod.mk.inj (Option.some.inj h)
          exact .inl ⟨rfl, rfl, hgot⟩
        · exact absurd h (by simp)

omit [Platform] in
theorem exponent_takes {input rest : Text} {e : Int} (h : exponent input = some (e, rest)) :
    ∃ exp, input = exp ++ rest ∧ ExponentOf exp e := by
  cases input with
  | nil =>
      obtain ⟨rfl, rfl⟩ := Prod.mk.inj (Option.some.inj h)
      exact ⟨[], rfl, .none⟩
  | cons c input =>
      simp only [exponent] at h
      split at h
      · rename_i he
        split at h
        · exact absurd h (by simp)
        · rename_i hne
          obtain ⟨rfl, rfl⟩ := Prod.mk.inj (Option.some.inj h)
          obtain ⟨sgn, hsgn, hin⟩ := sign_eq input
          refine ⟨c :: (sgn ++ (sign input).2.takeWhile isDigit), ?_,
            .some c sgn _ _ he hsgn (digits_take_while _) hne⟩
          rw [List.cons_append, List.append_assoc, List.takeWhile_append_dropWhile, ← hin]
      · obtain ⟨rfl, rfl⟩ := Prod.mk.inj (Option.some.inj h)
        exact ⟨[], rfl, .none⟩

/-- What `double_` takes is a numeral of its result. -/
theorem double_takes : Derives (fun x text => NumeralOf text x) double_ := by
  intro input x rest h
  obtain ⟨sgn, hsgn, hin⟩ := sign_eq input
  simp only [double_] at h
  split at h
  · rename_i result hspecial
    obtain rfl := Option.some.inj h
    split at hspecial
    · unfold parseNanOrInf at hspecial
      split at hspecial
      · rename_i behind hnan
        obtain ⟨rfl, rfl⟩ := Prod.mk.inj (Option.some.inj hspecial)
        obtain ⟨word, payload, hsplit, hword, hpayload⟩ := nan_takes hnan
        exact ⟨_, by rw [hin, hsplit]; simp, .nan sgn word payload _ hsgn hword hpayload⟩
      · obtain ⟨behind, hinf, heq⟩ := Option.map_eq_some_iff.mp hspecial
        obtain ⟨rfl, rfl⟩ := Prod.mk.inj heq
        obtain ⟨word, tail, hsplit, hword, htail⟩ := inf_takes hinf
        exact ⟨_, by rw [hin, hsplit]; simp, .infinity sgn word tail _ hsgn hword htail⟩
    · exact absurd hspecial (by simp)
  · split at h
    · exact absurd h (by simp)
    · rename_i frac middle hfrac
      split at h
      · exact absurd h (by simp)
      · rename_i e behind hexp
        obtain ⟨rfl, rfl⟩ := Prod.mk.inj (Option.some.inj h)
        obtain ⟨exp, hmiddle, hexp⟩ := exponent_takes hexp
        have hdigits := digits_take_while (sign input).2
        have hsplit : (sign input).2 = (sign input).2.takeWhile isDigit ++
            (sign input).2.dropWhile isDigit := List.takeWhile_append_dropWhile.symm
        rcases fraction_takes hfrac with ⟨hdrop, rfl, hgot⟩ | ⟨hdrop, hdigits', hgot⟩
        · refine ⟨sgn ++ ((sign input).2.takeWhile isDigit ++ exp), ?_,
            .decimal sgn _ exp _ e hsgn hdigits (by simpa using hgot) hexp⟩
          rw [List.append_assoc, List.append_assoc, ← hmiddle, ← hdrop, ← hsplit]
          exact hin
        · refine ⟨sgn ++ ((sign input).2.takeWhile isDigit ++ ch '.' :: (frac ++ exp)), ?_,
            .fraction sgn _ frac exp _ e hsgn hdigits hdigits' ?_ hexp⟩
          · have hbehind : (sign input).2.takeWhile isDigit ++ (ch '.' :: (frac ++ exp) ++ behind) =
                (sign input).2 := by
              rw [List.cons_append, List.append_assoc, ← hmiddle, ← hdrop, ← hsplit]
            rw [List.append_assoc, List.append_assoc, hbehind]
            exact hin
          · exact hgot.imp_left (by simp)

/-! ## What a string takes -/

omit [Platform] in
/-- An escape of the table takes a backslash and a character. -/
theorem unesc_char_takes {input rest : Text} {c : Byte} (h : unescChar input = some (c, rest)) :
    ∃ d, input = ch '\\' :: d :: rest ∧ escape d = some c := by
  obtain ⟨key, hkey, rfl⟩ := symbols_eq_some h
  simp only [List.mem_cons, List.not_mem_nil, or_false, Prod.mk.injEq] at hkey
  rcases hkey with ⟨rfl, rfl⟩ | ⟨rfl, rfl⟩ | ⟨rfl, rfl⟩ | ⟨rfl, rfl⟩ | ⟨rfl, rfl⟩ <;>
    exact ⟨_, rfl, rfl⟩

omit [Platform] in
/-- The characters in front of a quote. -/
theorem chars_take {input rest cs : Text} (h : many stringChar input = some (cs, ch '"' :: rest)) :
    ∃ text, input = text ++ ch '"' :: rest ∧ Unescapes text cs := by
  induction hsize : input.length using Nat.strongRecOn generalizing input cs with
  | ind size ih =>
      cases hfirst : stringChar input with
      | none =>
          rw [many_none hfirst] at h
          obtain ⟨rfl, hin⟩ := Prod.mk.inj (Option.some.inj h)
          exact ⟨[], hin, .nil⟩
      | some result =>
          obtain ⟨c, middle⟩ := result
          obtain ⟨as, left, has⟩ : ∃ as left, many stringChar middle = some (as, left) :=
            ⟨_, _, rfl⟩
          rw [many_some string_char_progresses hfirst has] at h
          obtain ⟨rfl, rfl⟩ := Prod.mk.inj (Option.some.inj h)
          have hshorter := string_char_progresses _ _ _ hfirst
          obtain ⟨text, rfl, htext⟩ := ih middle.length (hsize ▸ hshorter) has rfl
          rcases alt_eq_some hfirst with hesc | ⟨hnone, hchar⟩
          · obtain ⟨d, rfl, hd⟩ := unesc_char_takes hesc
            exact ⟨ch '\\' :: d :: text, rfl, .escape d c text as hd htext⟩
          · cases input with
            | nil => cases hchar
            | cons b input =>
                simp only [satisfy] at hchar
                split at hchar
                · rename_i hb
                  obtain ⟨rfl, rfl⟩ := Prod.mk.inj (Option.some.inj hchar)
                  rw [Bool.and_eq_true, bne_iff_ne] at hb
                  refine ⟨b :: text, rfl, .char b text as hb.1 hb.2 ?_ htext⟩
                  -- in front of the quote the backslash would be an escape
                  rintro rfl
                  cases text with
                  | nil =>
                      rw [List.nil_append, unesc_char_backslash] at hnone
                      simp [escape] at hnone
                  | cons d text =>
                      rw [List.cons_append, unesc_char_backslash, Option.map_eq_none_iff] at hnone
                      simp [loneBackslash, hnone]
                · cases hchar

omit [Platform] in
theorem quote_takes : Consumes (fun t => t = [ch '"']) (lit '"') :=
  .satisfy fun c hc => by rw [show c = ch '"' by simpa using hc]

omit [Platform] in
/-- A terminal takes white space and what its parser takes. -/
theorem token_takes {α : Type} {p : Parser Byte α} {Q R : α → Text → Prop} (h : Derives Q p)
    (hspaced : ∀ a space t, Spaces space → Q a t → R a (space ++ t)) : Derives R (token p) :=
  h.skipping hspaced

/-- A quoted text of the string behind white space. -/
def StringText (s text : Text) : Prop :=
  ∃ space body, text = space ++ quoted body ∧ Spaces space ∧ Unescapes body s

omit [Platform] in
/-- A string takes white space and a quoted text. -/
theorem string_takes : Derives StringText unescStr := by
  have hquoted : Derives (fun s t => ∃ body, t = quoted body ∧ Unescapes body s)
      (map (fun parts => parts.2.1) (seq (lit '"') (seq (many stringChar) (lit '"')))) := by
    intro input s rest h
    obtain ⟨parts, hparts, rfl⟩ := map_eq_some h
    obtain ⟨middle, hopen, hbody⟩ := seq_eq_some hparts
    obtain ⟨behind, hchars, hclose⟩ := seq_eq_some hbody
    obtain ⟨taken, rfl, rfl⟩ := quote_takes _ _ _ hopen
    obtain ⟨taken', rfl, rfl⟩ := quote_takes _ _ _ hclose
    obtain ⟨body, rfl, hmeans⟩ := chars_take hchars
    exact ⟨quoted body, by simp [quoted], body, rfl, hmeans⟩
  refine token_takes hquoted ?_
  rintro s space _ hs ⟨body, rfl, hbody⟩
  exact ⟨space, body, rfl, hs, hbody⟩

/-! ## What the start rule takes -/

/-- A text of the value behind white space. -/
def SpacedText (v : Value) (text : Text) : Prop :=
  ∃ space body, text = space ++ body ∧ Spaces space ∧ Means body v

/-- What `list` takes, and what stands in front of a closing bracket. -/
def ElementsBehind (vals : List Value) (text : Text) : Prop :=
  ∀ after, Spaces after → MeansElements (text ++ after) vals

def MembersBehind (keys : Object) (text : Text) : Prop :=
  ∀ after, Spaces after → MeansMembers (text ++ after) keys

theorem elements_take {json : Parser Byte Value} (h : Derives SpacedText json) :
    Derives ElementsBehind (list json (token (lit ','))) := by
  refine Derives.list
    (S := fun vals more =>
      ∀ v first, SpacedText v first → ElementsBehind (v :: vals) (first ++ more))
    h (consumes_bracket ',') ?_ ?_ fun v vals s t hs ht => ht v s hs
  · rintro v _ ⟨before, text, rfl, hb, ht⟩ after ha
    simpa using MeansElements.last before text after v hb ht ha
  · rintro w b vals _ s t ⟨space, hspace, rfl⟩ hs ht v _ ⟨before, text, rfl, hb, htext⟩ after ha
    simpa using MeansElements.cons before text space _ v _ hb htext hspace (ht w s hs after ha)

/-- A member of an object behind white space. -/
def MemberText (entry : Text × Value) (text : Text) : Prop :=
  ∃ before key middle behind body,
    text = before ++ (quoted key ++ (middle ++ ch ':' :: (behind ++ body))) ∧ Spaces before ∧
      Unescapes key entry.1 ∧ Spaces middle ∧ Spaces behind ∧ Means body entry.2

theorem member_takes {json : Parser Byte Value} (h : Derives SpacedText json) :
    Derives MemberText (keyvalR json) := by
  have hvalue : Derives (fun (parts : Byte × Value) t => ∃ middle behind body,
      t = middle ++ ch ':' :: (behind ++ body) ∧ Spaces middle ∧ Spaces behind ∧
        Means body parts.2) (seq (token (lit ':')) json) := by
    refine Derives.seq (consumes_bracket ':') h ?_
    rintro _ v _ _ ⟨middle, hm, rfl⟩ ⟨behind, body, rfl, hb, hbody⟩
    exact ⟨middle, behind, body, by simp, hm, hb, hbody⟩
  have hmember : Derives (fun (parts : Text × Byte × Value) => MemberText (parts.1, parts.2.2))
      (seq unescStr (seq (token (lit ':')) json)) := by
    refine string_takes.seq hvalue ?_
    rintro name parts _ _ ⟨before, key, rfl, hb, hkey⟩ ⟨middle, behind, body, rfl, hm, hv, hbody⟩
    exact ⟨before, key, middle, behind, body, by simp, hb, hkey, hm, hv, hbody⟩
  exact hmember.map

theorem members_take {json : Parser Byte Value} (h : Derives SpacedText json) :
    Derives MembersBehind (list (keyvalR json) (token (lit ','))) := by
  refine Derives.list
    (S := fun keys more => ∀ entry first, MemberText entry first →
      MembersBehind (entry :: keys) (first ++ more))
    (member_takes h) (consumes_bracket ',') ?_ ?_ fun entry keys s t hs ht => ht entry s hs
  · rintro ⟨name, v⟩ _ ⟨before, key, middle, behind, body, rfl, hb, hk, hm, hv, ht⟩ after ha
    simpa using MeansMembers.last before key middle behind body after name v hb hk hm hv ht ha
  · rintro next b keys _ s t ⟨space, hspace, rfl⟩ hs ht ⟨name, v⟩ _
      ⟨before, key, middle, behind, body, rfl, hb, hk, hm, hv, hbody⟩ after ha
    simpa using MeansMembers.cons before key middle behind body space _ name v _ hb hk hm hv
      hbody hspace (ht next s hs after ha)

/-- Two brackets and what is between them, behind white space. -/
theorem brackets_take {α : Type} {p : Parser Byte α} {c d : Char} {P : α → Text → Prop}
    (value : α → Value) (hp : Derives (fun a t => ∀ after, Spaces after → P a (t ++ after)) p)
    (htext : ∀ a body, P a body → Means (ch c :: (body ++ [ch d])) (value a)) :
    Derives (fun (parts : Byte × α × Byte) => SpacedText (value parts.2.1))
      (seq (token (lit c)) (seq p (token (lit d)))) := by
  have hrest : Derives (fun (parts : α × Byte) t => ∃ body, t = body ++ [ch d] ∧ P parts.1 body)
      (seq p (token (lit d))) := by
    refine hp.seq (consumes_bracket d) ?_
    rintro a _ t _ ht ⟨space, hs, rfl⟩
    exact ⟨t ++ space, by simp, ht space hs⟩
  refine Derives.seq (consumes_bracket c) hrest ?_
  rintro _ parts _ _ ⟨space, hs, rfl⟩ ⟨body, rfl, hbody⟩
  exact ⟨space, ch c :: (body ++ [ch d]), by simp, hs, htext parts.1 body hbody⟩

/-- A terminal takes white space and its text. -/
theorem value_takes {α : Type} {p : Parser Byte α} {value : α → Value}
    (h : Derives (fun a t => Means t (value a)) p) :
    Derives (fun a => SpacedText (value a)) (token p) :=
  token_takes h fun _ space t hs ht => ⟨space, t, rfl, hs, ht⟩

omit [Platform] in
theorem eps_takes :
    Derives (fun (_ : Unit) t => ∀ after, Spaces after → Spaces (t ++ after)) (token eps) :=
  token_takes (.eps rfl : Derives (fun _ t => t = []) eps) fun _ space t hs ht after ha => by
    rw [ht, List.append_nil]
    exact hs.append ha

/-- What `json_r` takes is a text of its result behind white space. -/
theorem takes_means : Derives SpacedText jsonR := by
  refine Derives.fix fun json hjson => ?_
  have hnumber : Derives (fun x t => Means t (.number x)) double_ :=
    double_takes.mono fun x t ht => .number t x ht
  have hbool : Derives (fun b t => Means t (.bool b)) bool_ := by
    have htrue : Derives (fun (_ : Unit) t => Means t (.bool true)) (literal (str "true")) :=
      .literal (.bool true)
    have hfalse : Derives (fun (_ : Unit) t => Means t (.bool false)) (literal (str "false")) :=
      .literal (.bool false)
    exact .alt htrue.map hfalse.map
  have hstring : Derives (fun s => SpacedText (.string s)) unescStr :=
    string_takes.mono fun s t ⟨space, body, ht, hs, hbody⟩ =>
      ⟨space, quoted body, ht, hs, .string body s hbody⟩
  have hnull : Derives (fun v t => Means t v) nullS := .symbols fun entry hentry => by
    rw [List.mem_singleton.mp hentry]
    exact .null
  have hobject : Derives (fun keys => SpacedText (.object keys)) (objectR json) :=
    Derives.map (R := fun keys => SpacedText (.object keys)) <|
      brackets_take (P := fun keys body => MeansMembers body keys) .object (members_take hjson)
        fun keys body => .object body keys
  have harray : Derives (fun vals => SpacedText (.array vals)) (arrayR json) :=
    Derives.map (R := fun vals => SpacedText (.array vals)) <|
      brackets_take (P := fun vals body => MeansElements body vals) .array (elements_take hjson)
        fun vals body => .array body vals
  have hempty : Derives (fun vals => SpacedText (.array vals)) emptyArrayR :=
    Derives.map (R := fun vals => SpacedText (.array vals)) <|
      brackets_take (fun _ => .array []) eps_takes fun _ => .emptyArray
  have hempty' : Derives (fun keys => SpacedText (.object keys)) emptyObjectR :=
    Derives.map (R := fun keys => SpacedText (.object keys)) <|
      brackets_take (fun _ => .object []) eps_takes fun _ => .emptyObject
  exact .alt (value_takes hnumber).map <| .alt (value_takes hbool).map <| .alt hstring.map <|
    .alt hobject.map <| .alt harray.map <| .alt (value_takes hnull) <| .alt hempty.map hempty'.map

/-! ## What `read` accepts -/

/-- `read` reads a text between white space as what it means. -/
theorem read_means {before text after : Text} {v : Value} (hbefore : Spaces before)
    (h : Means text v) (hafter : Spaces after) : read (before ++ (text ++ after)) = .ok v := by
  have hbehind : Behind after := by
    have hspaces := Behind.nil.spaces hafter
    rwa [List.append_nil] at hspaces
  unfold read
  rw [json_r_spaces hbefore, reads_means h fun _ _ => hbehind]

/-- A text means one value. -/
theorem means_unique {text : Text} {v w : Value} (h : Means text v) (h' : Means text w) :
    v = w := by
  have hread := read_means Spaces.nil h Spaces.nil
  rw [read_means Spaces.nil h' Spaces.nil] at hread
  exact (Except.ok.inj hread).symm

/-- What `read` returns is what the text means that it begins with, white space aside. -/
theorem means_of_read {j : Text} {v : Value} (h : read j = .ok v) :
    ∃ before text rest, j = before ++ (text ++ rest) ∧ Spaces before ∧ Means text v := by
  unfold read at h
  split at h
  · rename_i w rest hjson
    obtain rfl := Except.ok.inj h
    obtain ⟨taken, hin, before, text, rfl, hbefore, htext⟩ := takes_means _ _ _ hjson
    exact ⟨before, text, rest, by rw [hin, List.append_assoc], hbefore, htext⟩
  · exact absurd h nofun

/-- `read` returns or throws `json_parse_error`. -/
theorem read_cases (j : Text) :
    (∃ v, read j = .ok v) ∨ read j = .error (.thrown .jsonParseError) := by
  unfold read
  cases jsonR j with
  | some result => exact .inl ⟨result.1, rfl⟩
  | none => exact .inr rfl

/-- `read` returns for every JSON text between white space, and so for every text of the relaxed
grammar that its terminals make; for a string that does not begin with such a text it throws
`json_parse_error`. -/
theorem accepts (j : Text) :
    (∀ before text after, j = before ++ (text ++ after) → rfc8259.Blank before →
      rfc8259.Blank after → JsonText rfc8259 text → ∃ v, read j = .ok v) ∧
    (∀ before text after, j = before ++ (text ++ after) → relaxed.Blank before →
      relaxed.Blank after → JsonText relaxed text → ∃ v, read j = .ok v) ∧
    ((¬ ∃ before text after, j = before ++ (text ++ after) ∧ relaxed.Blank before ∧
      JsonText relaxed text) → read j = .error (.thrown .jsonParseError)) := by
  have haccept : ∀ before text after, j = before ++ (text ++ after) → relaxed.Blank before →
      relaxed.Blank after → JsonText relaxed text → ∃ v, read j = .ok v := by
    rintro before text after rfl hbefore hafter htext
    obtain ⟨v, hv⟩ := text_means htext
    exact ⟨v, read_means hbefore hv hafter⟩
  refine ⟨?_, haccept, ?_⟩
  · intro before text after hj hbefore hafter htext
    exact haccept before text after hj (relaxed_extends.blank hbefore)
      (relaxed_extends.blank hafter) (relaxed_of_rfc htext)
  · intro hnone
    rcases read_cases j with ⟨v, hv⟩ | hthrow
    · obtain ⟨before, text, rest, hj, hbefore, htext⟩ := means_of_read hv
      exact absurd ⟨before, text, rest, hj, hbefore, htext.text⟩ hnone
    · exact hthrow

omit [Platform] in
/-- `nan` is read, and no part of it is a JSON text between white space. -/
theorem nan_accepted :
    (∃ v, @read (.exact false) (str "nan") = .ok v) ∧
      ¬ ∃ before text after, str "nan" = before ++ (text ++ after) ∧ rfc8259.Blank before ∧
        rfc8259.Blank after ∧ JsonText rfc8259 text := by
  refine ⟨⟨.number .nan, rfl⟩, ?_⟩
  rintro ⟨before, text, after, hj, hbefore, hafter, htext⟩
  have hbefore : before = [] := by
    cases before with
    | nil => rfl
    | cons c before =>
        have hc : ch 'n' = c := (List.cons.inj hj).1
        exact absurd (hbefore c List.mem_cons_self) (hc ▸ by decide)
  have hafter : after = [] := by
    rcases List.eq_nil_or_concat after with hnil | ⟨front, c, rfl⟩
    · exact hnil
    · have hlast := congrArg List.getLast? hj
      have hc : ch 'n' = c := by simpa [str, hbefore] using hlast
      exact absurd (hafter c (by simp)) (hc ▸ by decide)
  rw [hbefore, hafter, List.nil_append, List.append_nil] at hj
  -- no JSON text begins with the letters of `nan`
  generalize hn : str "nan" = n at hj
  subst hj
  cases htext with
  | null => exact absurd hn (by decide)
  | bool b => cases b <;> exact absurd hn (by decide)
  | number _ h =>
      obtain ⟨sgn, int, frac, exp, hsgn, hint, -, -⟩ := h
      obtain ⟨c, digits, rfl⟩ := List.exists_cons_of_ne_nil hint.digits_ne.2
      have hdigit := hint.digits_ne.1 c List.mem_cons_self
      rcases hsgn with rfl | rfl
      · have hc : ch 'n' = c := (List.cons.inj hn).1
        exact absurd hdigit (hc ▸ by decide)
      · exact absurd (List.cons.inj hn).1 (by decide)
  | string | emptyObject | object | emptyArray | array =>
      exact absurd (List.cons.inj hn).1 (by decide)

end BoostRpc.Json
