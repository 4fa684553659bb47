import BoostRpc.Json.Value
import BoostRpc.Peg.Combinators

/-!
# The JSON reader

`json_grammar` of `value.cpp` over the combinators of `BoostRpc.Peg.Combinators`, with the
skipper `ascii::space`: every terminal is a `token`, which skips white space in front of it, and
`lexeme` switches the skipper off inside strings. `read` runs the start rule on a text and does
not look at what it leaves. `json_r_eq` unfolds the recursion of the grammar.
-/

namespace BoostRpc.Json

open Peg

/-! ## Numerals -/

/-- The sign in front of a numeral: whether it is negative, and what follows. -/
def sign : Text → Bool × Text
  | [] => (false, [])
  | c :: rest =>
      if c = ch '-' then (true, rest) else if c = ch '+' then (false, rest) else (false, c :: rest)

/-- A word in letters of either case. -/
def noCase : Text → Text → Parser Byte Unit
  | l :: lower, u :: upper, c :: input => if c = l ∨ c = u then noCase lower upper input else none
  | _ :: _, _ :: _, [] => none
  | _, _, input => some ((), input)

/-- `real_policies::parse_nan`: `nan`, with anything in parentheses behind it. -/
def parseNan (input : Text) : Option Text :=
  match noCase (str "nan") (str "NAN") input with
  | none => none
  | some (_, []) => some []
  | some (_, c :: rest) =>
      if c = ch '(' then
        match rest.dropWhile (· != ch ')') with
        | [] => none
        | _ :: behind => some behind
      else some (c :: rest)

/-- `real_policies::parse_inf`: `inf` or `infinity`. -/
def parseInf (input : Text) : Option Text :=
  match noCase (str "inf") (str "INF") input with
  | none => none
  | some (_, rest) =>
      match noCase (str "inity") (str "INITY") rest with
      | some (_, behind) => some behind
      | none => some rest

/-- A numeral without digits in front. -/
def parseNanOrInf (negative : Bool) (input : Text) : Option (Double × Text) :=
  match parseNan input with
  | some rest => some (.nan, rest)
  | none => (parseInf input).map fun rest => (.infinity negative, rest)

/-- The decimal point and the digits behind it. The point alone is a numeral only behind digits. -/
def fraction (gotNumber : Bool) : Text → Option (Text × Text)
  | [] => if gotNumber then some ([], []) else none
  | c :: rest =>
      if c = ch '.' then
        if rest.takeWhile isDigit = [] ∧ gotNumber = false then none
        else some (rest.takeWhile isDigit, rest.dropWhile isDigit)
      else if gotNumber then some ([], c :: rest) else none

/-- The exponent. An exponent prefix without digits behind it is no match. -/
def exponent : Text → Option (Int × Text)
  | [] => some (0, [])
  | c :: rest =>
      if c = ch 'e' ∨ c = ch 'E' then
        let (negative, unsigned) := sign rest
        let digits := unsigned.takeWhile isDigit
        if digits = [] then none
        else some (if negative then -digitsValue digits else digitsValue digits,
          unsigned.dropWhile isDigit)
      else some (0, c :: rest)

/-- The number that a numeral stands for. -/
def numeralValue (negative : Bool) (int frac : Text) (exp : Int) : ℚ :=
  (if negative then -1 else 1) * (digitsValue (int ++ frac) / 10 ^ frac.length) * 10 ^ exp

/-- `qi::double_`, with the default `real_policies`. -/
def double_ [Platform] : Parser Byte Double := fun input =>
  let (negative, unsigned) := sign input
  let int := unsigned.takeWhile isDigit
  match if int = [] then parseNanOrInf negative unsigned else none with
  | some result => some result
  | none =>
      match fraction (!int.isEmpty) (unsigned.dropWhile isDigit) with
      | none => none
      | some (frac, rest) =>
          match exponent rest with
          | none => none
          | some (exp, rest) =>
              some (Platform.ofNumeral (numeralValue negative int frac exp), rest)

/-! ## The other terminals -/

/-- A parser in a rule with the skipper `ascii::space`. -/
def token {α : Type} (p : Parser Byte α) : Parser Byte α := skipping isSpace p

/-- `qi::lit` of a character. -/
def lit (c : Char) : Parser Byte Byte := satisfy (· == ch c)

/-- `qi::bool_` -/
def bool_ : Parser Byte Bool :=
  alt (map (fun _ => true) (literal (str "true"))) (map (fun _ => false) (literal (str "false")))

/-- The table of escapes. -/
def unescChar : Parser Byte Byte :=
  symbols [(str "\\r", 13), (str "\\\\", ch '\\'), (str "\\n", 10), (str "\\t", 9),
    (str "\\\"", ch '"')]

/-- A character of a string: an escape of the table, or any ASCII character but a quote. -/
def stringChar : Parser Byte Byte := alt unescChar (satisfy fun c => isAscii c && c != ch '"')

/-- `unesc_str = lexeme['"' >> *(unesc_char | (char_ -'\"') ) >> '"']` -/
def unescStr : Parser Byte Text :=
  token (map (fun (_, text, _) => text) (seq (lit '"') (seq (many stringChar) (lit '"'))))

/-- The table of the null value. -/
def nullS : Parser Byte Value := symbols [(str "null", .null)]

/-! ## The rules -/

/-- `keyval_r %= unesc_str >> ':' >> json_r` -/
def keyvalR (json : Parser Byte Value) : Parser Byte (Text × Value) :=
  map (fun (key, _, val) => (key, val)) (seq unescStr (seq (token (lit ':')) json))

/-- `object_r %= '{' >> keyval_r % ',' >> '}'` -/
def objectR (json : Parser Byte Value) : Parser Byte Object :=
  map (fun (_, keys, _) => keys)
    (seq (token (lit '{')) (seq (list (keyvalR json) (token (lit ','))) (token (lit '}'))))

/-- `array_r %= ('[' >>(json_r % ',') >> ']')` -/
def arrayR (json : Parser Byte Value) : Parser Byte (List Value) :=
  map (fun (_, vals, _) => vals)
    (seq (token (lit '[')) (seq (list json (token (lit ','))) (token (lit ']'))))

/-- `empty_array_r %= ('[' >> eps >> ']')` -/
def emptyArrayR : Parser Byte (List Value) :=
  map (fun _ => []) (seq (token (lit '[')) (seq (token eps) (token (lit ']'))))

/-- `empty_object_r %= ('{' >> eps >> '}')` -/
def emptyObjectR : Parser Byte Object :=
  map (fun _ => []) (seq (token (lit '{')) (seq (token eps) (token (lit '}'))))

/-- The right-hand side of `json_r`. -/
def jsonBody [Platform] (json : Parser Byte Value) : Parser Byte Value :=
  alt (map .number (token double_)) <|
  alt (map .bool (token bool_)) <|
  alt (map .string unescStr) <|
  alt (map .object (objectR json)) <|
  alt (map .array (arrayR json)) <|
  alt (token nullS) <|
  alt (map .array emptyArrayR) (map .object emptyObjectR)

/-- `json_r %= (double_ | bool_ | unesc_str | object_r | array_r | null_r | empty_array_r |
empty_object_r)` -/
def jsonR [Platform] : Parser Byte Value := fix jsonBody

/-- `json::read`. -/
def read [Platform] (j : Text) : Except Exception Value :=
  match jsonR j with
  | some (v, _) => .ok v
  | none => .error (.thrown .jsonParseError)

/-! ## What a numeral consumes -/

/-- The bytes of a numeral, the payload of a `nan` aside. -/
def numeralByte (c : Byte) : Bool := isDigit c || (str "+-.eEnNaAiIfFtTyY").contains c

/-- `rest` is what is left of `input` behind some bytes of a numeral. -/
def Run (input rest : Text) : Prop :=
  ∃ taken, input = taken ++ rest ∧ ∀ c ∈ taken, numeralByte c = true

theorem Run.refl (input : Text) : Run input input :=
  ⟨[], rfl, fun _ hc => absurd hc List.not_mem_nil⟩

theorem Run.cons {c : Byte} {input rest : Text} (hc : numeralByte c = true)
    (h : Run input rest) : Run (c :: input) rest := by
  obtain ⟨taken, rfl, htaken⟩ := h
  exact ⟨c :: taken, rfl, fun d hd => (List.mem_cons.mp hd).elim (fun he => he ▸ hc) (htaken d)⟩

theorem Run.trans {input middle rest : Text} (h : Run input middle) (h' : Run middle rest) :
    Run input rest := by
  obtain ⟨first, rfl, hfirst⟩ := h
  obtain ⟨second, rfl, hsecond⟩ := h'
  refine ⟨first ++ second, (List.append_assoc first second rest).symm, ?_⟩
  intro c hc
  exact (List.mem_append.mp hc).elim (hfirst c) (hsecond c)

theorem run_digits (input : Text) : Run input (input.dropWhile isDigit) :=
  ⟨input.takeWhile isDigit, List.takeWhile_append_dropWhile.symm,
    fun _ hc => by simp [numeralByte, List.mem_takeWhile_imp hc]⟩

theorem run_sign (input : Text) : Run input (sign input).2 := by
  cases input with
  | nil => exact .refl _
  | cons c rest =>
      simp only [sign]
      split_ifs with hminus hplus
      · exact .cons (hminus ▸ by decide) (.refl _)
      · exact .cons (hplus ▸ by decide) (.refl _)
      · exact .refl _

theorem run_no_case {lower upper input rest : Text}
    (hword : ∀ c ∈ lower ++ upper, numeralByte c = true)
    (h : noCase lower upper input = some ((), rest)) : Run input rest := by
  induction lower, upper, input using noCase.induct with
  | case1 l lower u upper c input hc ih =>
      simp only [noCase, if_pos hc] at h
      have hbyte : numeralByte c = true :=
        hc.elim (fun he => hword c (by simp [he])) (fun he => hword c (by simp [he]))
      refine .cons hbyte (ih (fun d hd => hword d ?_) h)
      rcases List.mem_append.mp hd with hd | hd <;> simp [hd]
  | case2 l lower u upper c input hc => simp [noCase, hc] at h
  | case3 => simp [noCase] at h
  | case4 lower upper input h1 h2 =>
      rw [noCase] at h
      · obtain ⟨-, rfl⟩ := Prod.mk.inj (Option.some.inj h)
        exact .refl _
      · exact h1
      · exact h2

theorem run_inf {input rest : Text} (h : parseInf input = some rest) : Run input rest := by
  unfold parseInf at h
  split at h
  · exact absurd h (by simp)
  · rename_i u tail hword
    have hrun : Run input tail := run_no_case (List.all_eq_true.mp rfl) hword
    split at h
    · rename_i u' behind hword'
      obtain rfl := Option.some.inj h
      exact hrun.trans (run_no_case (List.all_eq_true.mp rfl) hword')
    · obtain rfl := Option.some.inj h
      exact hrun

theorem run_fraction {got : Bool} {input frac rest : Text}
    (h : fraction got input = some (frac, rest)) : Run input rest := by
  cases input with
  | nil =>
      simp only [fraction] at h
      split at h
      · obtain ⟨-, rfl⟩ := Prod.mk.inj (Option.some.inj h)
        exact .refl _
      · exact absurd h (by simp)
  | cons c input =>
      simp only [fraction] at h
      split at h
      · rename_i hdot
        split at h
        · exact absurd h (by simp)
        · obtain ⟨-, rfl⟩ := Prod.mk.inj (Option.some.inj h)
          exact .cons (hdot ▸ by decide) (run_digits input)
      · split at h
        · obtain ⟨-, rfl⟩ := Prod.mk.inj (Option.some.inj h)
          exact .refl _
        · exact absurd h (by simp)

theorem run_exponent {input rest : Text} {exp : Int} (h : exponent input = some (exp, rest)) :
    Run input rest := by
  cases input with
  | nil =>
      obtain ⟨-, rfl⟩ := Prod.mk.inj (Option.some.inj h)
      exact .refl _
  | cons c input =>
      simp only [exponent] at h
      split at h
      · rename_i he
        split at h
        · exact absurd h (by simp)
        · obtain ⟨-, rfl⟩ := Prod.mk.inj (Option.some.inj h)
          have hbyte : numeralByte c = true := by rcases he with rfl | rfl <;> decide
          exact .cons hbyte ((run_sign input).trans (run_digits _))
      · obtain ⟨-, rfl⟩ := Prod.mk.inj (Option.some.inj h)
        exact .refl _

/-- What a numeral looks like to a reader that does not know it: bytes of a numeral only, or
anything, where there is a parenthesis in it. -/
def Numeral (taken : Text) : Prop := ch '(' ∈ taken ∨ ∀ c ∈ taken, numeralByte c = true

theorem nan_consumes {input rest : Text} (h : parseNan input = some rest) :
    ∃ taken, input = taken ++ rest ∧ Numeral taken := by
  have word {tail : Text} (hword : noCase (str "nan") (str "NAN") input = some ((), tail)) :
      Run input tail := run_no_case (List.all_eq_true.mp rfl) hword
  unfold parseNan at h
  split at h
  · exact absurd h (by simp)
  · rename_i hword
    obtain rfl := Option.some.inj h
    obtain ⟨taken, hin, htaken⟩ := word hword
    exact ⟨taken, hin, Or.inr htaken⟩
  · rename_i u c tail hword
    obtain ⟨taken, hin, htaken⟩ := word hword
    split at h
    · rename_i hparen
      split at h
      · exact absurd h (by simp)
      · -- the payload, up to the closing parenthesis, is taken whatever it is
        rename_i d behind hdrop
        obtain rfl := Option.some.inj h
        refine ⟨taken ++ c :: (tail.takeWhile (· != ch ')') ++ [d]), ?_, Or.inl (by simp [hparen])⟩
        have hsplit : tail = tail.takeWhile (· != ch ')') ++ d :: behind := by
          rw [← hdrop, List.takeWhile_append_dropWhile]
        rw [hin]
        conv_lhs => rw [hsplit]
        simp
    · obtain rfl := Option.some.inj h
      exact ⟨taken, hin, Or.inr htaken⟩

/-- `double_` takes a numeral. -/
theorem double_consumes [Platform] : Consumes Numeral double_ := by
  intro input x rest h
  obtain ⟨signed, hin, hsigned⟩ := run_sign input
  -- the special numerals stand behind the sign
  have behind_sign : ∀ taken, (sign input).2 = taken ++ rest → Numeral taken →
      ∃ whole, input = whole ++ rest ∧ Numeral whole := by
    intro taken hsplit htaken
    refine ⟨signed ++ taken, by rw [List.append_assoc, ← hsplit]; exact hin, ?_⟩
    rcases htaken with hparen | hbytes
    · exact Or.inl (List.mem_append_right _ hparen)
    · exact Or.inr fun c hc => (List.mem_append.mp hc).elim (hsigned c) (hbytes c)
  simp only [double_] at h
  split at h
  · rename_i result hspecial
    obtain rfl := Option.some.inj h
    split at hspecial
    · unfold parseNanOrInf at hspecial
      split at hspecial
      · rename_i behind hnan
        obtain ⟨-, rfl⟩ := Prod.mk.inj (Option.some.inj hspecial)
        obtain ⟨taken, hsplit, htaken⟩ := nan_consumes hnan
        exact behind_sign taken hsplit htaken
      · obtain ⟨behind, hinf, heq⟩ := Option.map_eq_some_iff.mp hspecial
        obtain ⟨-, rfl⟩ := Prod.mk.inj heq
        obtain ⟨taken, hsplit, htaken⟩ := run_inf hinf
        exact behind_sign taken hsplit (Or.inr htaken)
    · exact absurd hspecial (by simp)
  · split at h
    · exact absurd h (by simp)
    · rename_i frac middle hfrac
      split at h
      · exact absurd h (by simp)
      · rename_i exp behind hexp
        obtain ⟨-, rfl⟩ := Prod.mk.inj (Option.some.inj h)
        obtain ⟨taken, hsplit, htaken⟩ :=
          ((run_digits (sign input).2).trans (run_fraction hfrac)).trans (run_exponent hexp)
        exact behind_sign taken hsplit (Or.inr htaken)

/-! ## Recursion -/

theorem token_non_growing {α : Type} {p : Parser Byte α} (h : NonGrowing p) :
    NonGrowing (token p) := skipping_non_growing h

theorem lit_progresses (c : Char) : Progresses (token (lit c)) :=
  skipping_progresses (satisfy_progresses _)

theorem symbols_non_growing {α : Type} (table : List (Text × α)) : NonGrowing (symbols table) := by
  intro input a rest h
  obtain ⟨key, -, rfl⟩ := symbols_eq_some h
  simp

theorem literal_non_growing (key : Text) : NonGrowing (literal key) := by
  intro input u rest h
  simp only [literal, Option.map_eq_some_iff, Prod.mk.injEq] at h
  obtain ⟨rest', hk, -, rfl⟩ := h
  rw [strip_prefix_eq_some hk]
  simp

theorem unesc_char_progresses : Progresses unescChar := by
  intro input c rest h
  obtain ⟨key, hkey, rfl⟩ := symbols_eq_some h
  have hlen : 0 < key.length := by
    simp only [List.mem_cons, List.not_mem_nil, or_false, Prod.mk.injEq] at hkey
    rcases hkey with h | h | h | h | h <;> rw [h.1] <;> decide
  rw [List.length_append]
  omega

theorem string_char_progresses : Progresses stringChar := by
  intro input c rest h
  rcases alt_eq_some h with h | ⟨-, h⟩
  · exact unesc_char_progresses _ _ _ h
  · exact satisfy_progresses _ _ _ _ h

theorem unesc_str_non_growing : NonGrowing unescStr :=
  token_non_growing (map_non_growing (seq_non_growing (satisfy_progresses _).non_growing
    (seq_non_growing (many_non_growing string_char_progresses.non_growing)
      (satisfy_progresses _).non_growing)))

/-- A key-value pair calls the recursive rule on no longer input. -/
theorem keyval_r_local : Local keyvalR :=
  ((Guarded.const unesc_str_non_growing).isLocal.seq
    ((Guarded.const (lit_progresses ':').non_growing).isLocal.seq Local.id)).map

theorem object_r_guarded : Guarded objectR :=
  (Guarded.seq (lit_progresses '{') ((keyval_r_local.list (lit_progresses ',').non_growing).seq
    (Guarded.const (lit_progresses '}').non_growing).isLocal)).map

theorem array_r_guarded : Guarded arrayR :=
  (Guarded.seq (lit_progresses '[') ((Local.id.list (lit_progresses ',').non_growing).seq
    (Guarded.const (lit_progresses ']').non_growing).isLocal)).map

theorem empty_array_r_non_growing : NonGrowing emptyArrayR :=
  map_non_growing (seq_non_growing (lit_progresses '[').non_growing
    (seq_non_growing (token_non_growing eps_non_growing) (lit_progresses ']').non_growing))

theorem empty_object_r_non_growing : NonGrowing emptyObjectR :=
  map_non_growing (seq_non_growing (lit_progresses '{').non_growing
    (seq_non_growing (token_non_growing eps_non_growing) (lit_progresses '}').non_growing))

theorem bool_non_growing : NonGrowing bool_ :=
  alt_non_growing (map_non_growing (literal_non_growing _))
    (map_non_growing (literal_non_growing _))

/-- Every rule consumes a bracket before it calls `json_r` again. -/
theorem json_body_guarded [Platform] : Guarded jsonBody :=
  (Guarded.const (map_non_growing (token_non_growing double_consumes.non_growing))).alt <|
  (Guarded.const (map_non_growing (token_non_growing bool_non_growing))).alt <|
  (Guarded.const (map_non_growing unesc_str_non_growing)).alt <|
  object_r_guarded.map.alt <|
  array_r_guarded.map.alt <|
  (Guarded.const (token_non_growing (symbols_non_growing _))).alt <|
  (Guarded.const (map_non_growing empty_array_r_non_growing)).alt
    (Guarded.const (map_non_growing empty_object_r_non_growing))

/-- The recursive definition of `json_r` holds on every input: no recursion bound shows. -/
theorem json_r_eq [Platform] (input : Text) : jsonR input = jsonBody jsonR input :=
  fix_eq json_body_guarded input

end BoostRpc.Json
