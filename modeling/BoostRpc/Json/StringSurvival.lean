import BoostRpc.Json.Decimals
import BoostRpc.Peg.Yields

/-!
# Strings in the text format

The printer puts a string between quotes as it stands, and the grammar takes the escapes of its
table apart. `yields_string` says for which strings the two are inverse; the argument is that an
escaped backslash makes what is read fall behind what was written, and nothing makes up for it
(`no_extra_backslash`). `yields_print` is the induction over values.
-/

namespace BoostRpc.Json

open Peg Rounding

/-! ## The strings that survive -/

/-- Between quotes the grammar reads the text as it stands: it is ASCII without quotes, and no
backslash in it makes an escape. -/
def survives : Text → Bool
  | [] => true
  | c :: text =>
      isAscii c && c != ch '"' && (c != ch '\\' || loneBackslash text) && survives text

theorem survives_cons (c : Byte) (text : Text) :
    survives (c :: text) = true ↔
      isAscii c = true ∧ c ≠ ch '"' ∧ (c = ch '\\' → loneBackslash text = true) ∧
        survives text = true := by
  simp only [survives, Bool.and_eq_true, Bool.or_eq_true, bne_iff_ne, ne_eq, ← imp_iff_not_or,
    and_assoc]

/-- An escape other than that of the backslash is not read as a backslash. -/
theorem escape_ne {c d : Byte} (h : escape c = some d) (hc : c ≠ ch '\\') : d ≠ ch '\\' := by
  unfold escape at h
  split_ifs at h with hr hn ht hq
  all_goals
    obtain rfl := Option.some.inj h
    decide

/-- What a success of `many stringChar` with a first character does. -/
theorem many_string_char_cons {input middle rest : Text} {c d : Byte} {text : Text}
    (hfirst : stringChar input = some (c, middle))
    (h : many stringChar input = some (d :: text, rest)) :
    c = d ∧ many stringChar middle = some (text, rest) := by
  obtain ⟨as, left, has⟩ : ∃ as left, many stringChar middle = some (as, left) := ⟨_, _, rfl⟩
  rw [many_some string_char_progresses hfirst has] at h
  obtain ⟨hcons, rfl⟩ := Prod.mk.inj (Option.some.inj h)
  obtain ⟨rfl, rfl⟩ := List.cons.inj hcons
  exact ⟨rfl, has⟩

/-- Where no character is read, nothing is. -/
theorem many_string_char_none {input rest : Text} {d : Byte} {text : Text}
    (hfirst : stringChar input = none) : many stringChar input ≠ some (d :: text, rest) := by
  rw [many_none hfirst]
  intro h
  exact absurd (congrArg Prod.fst (Option.some.inj h)) (by simp)

/-- The characters of a string begin with a backslash only where it does, and then the
backslash is escaped or stands alone. -/
theorem backslash_read {text rest left : Text} {more : Text}
    (h : many stringChar (text ++ ch '"' :: rest) = some (ch '\\' :: more, left)) :
    ∃ behind, (text = ch '\\' :: behind ∧ loneBackslash behind = true ∨
        text = ch '\\' :: ch '\\' :: behind) ∧
      many stringChar (behind ++ ch '"' :: rest) = some (more, left) := by
  cases text with
  | nil => exact absurd h (many_string_char_none (string_char_none (.inl rfl) rest))
  | cons c text =>
      by_cases hnone : c = ch '"' ∨ isAscii c = false
      · exact absurd h (many_string_char_none (string_char_none hnone _))
      rw [not_or, Bool.not_eq_false] at hnone
      by_cases hlone : c = ch '\\' → loneBackslash text = true
      · -- the first character is read as it stands
        obtain ⟨rfl, hmore⟩ :=
          many_string_char_cons (string_char_plain hnone.2 hnone.1 hlone rest) h
        exact ⟨text, .inl ⟨rfl, hlone rfl⟩, hmore⟩
      · obtain ⟨rfl, hlone⟩ := Classical.not_imp.mp hlone
        cases text with
        | nil =>
            -- the closing quote is taken as an escape
            have hread := string_char_escape (c := ch '"') rfl rest
            have hne := (many_string_char_cons hread h).1
            exact absurd hne (by decide)
        | cons d text =>
            obtain ⟨e, he⟩ : ∃ e, escape d = some e := by
              cases hd : escape d with
              | none => exact absurd (by simp [loneBackslash, hd]) hlone
              | some e => exact ⟨e, rfl⟩
            obtain ⟨hslash, hmore⟩ := many_string_char_cons (string_char_escape he _) h
            by_cases hd : d = ch '\\'
            · rw [hd]
              exact ⟨text, .inr rfl, hmore⟩
            · exact absurd hslash (escape_ne he hd)

theorem replicate_backslash (n : Nat) (text : Text) :
    List.replicate n (ch '\\') ++ ch '\\' :: text =
      List.replicate (n + 1) (ch '\\') ++ text := by
  rw [List.replicate_succ', List.append_assoc, List.singleton_append]

/-- What is read is never what was written with backslashes in front. -/
theorem no_extra_backslash {text rest left : Text} (n : Nat) :
    many stringChar (text ++ ch '"' :: rest) ≠
      some (List.replicate (n + 1) (ch '\\') ++ text, left) := by
  induction hsize : text.length using Nat.strongRecOn generalizing text n with
  | ind size ih =>
      intro h
      rw [List.replicate_succ, List.cons_append] at h
      obtain ⟨behind, hcase, hmore⟩ := backslash_read h
      rcases hcase with ⟨rfl, -⟩ | rfl
      · -- one backslash is read for one that was written
        rw [replicate_backslash] at hmore
        exact ih behind.length (by simp at hsize; omega) n rfl hmore
      · -- one backslash is read for two that were written
        rw [replicate_backslash, replicate_backslash] at hmore
        exact ih behind.length (by simp at hsize; omega) (n + 1) rfl hmore

/-- The characters of a string are read as they stand exactly where it survives. -/
theorem yields_string_chars (text rest : Text) :
    Yields (many stringChar) (· = text) (text ++ ch '"' :: rest) (ch '"' :: rest)
      (survives text = true) := by
  induction text with
  | nil =>
      have hend := many_none (string_char_none (.inl rfl) rest)
      exact (yields_of_some (· = []) hend).iff (by simp [survives])
  | cons c text ih =>
      intro left
      constructor
      · rintro ⟨_, h, rfl⟩
        by_cases hnone : c = ch '"' ∨ isAscii c = false
        · exact absurd h (many_string_char_none (string_char_none hnone _))
        rw [not_or, Bool.not_eq_false] at hnone
        have hlone : c = ch '\\' → loneBackslash text = true := by
          rintro rfl
          obtain ⟨behind, hcase, hmore⟩ := backslash_read h
          rcases hcase with ⟨heq, hlone⟩ | heq
          · rw [(List.cons.inj heq).2]
            exact hlone
          · rw [(List.cons.inj heq).2] at hmore
            exact absurd hmore (no_extra_backslash 0)
        obtain ⟨-, hmore⟩ := many_string_char_cons (string_char_plain hnone.2 hnone.1 hlone rest) h
        obtain ⟨hsurvives, hleft⟩ := (ih left).mp ⟨text, hmore, rfl⟩
        refine ⟨?_, hleft⟩
        rw [survives_cons]
        exact ⟨hnone.2, hnone.1, hlone, hsurvives⟩
      · rintro ⟨hsurvives, hleft⟩
        rw [survives_cons] at hsurvives
        obtain ⟨hascii, hquote, hlone, hsurvives⟩ := hsurvives
        obtain ⟨_, hmore, rfl⟩ := (ih left).mpr ⟨hsurvives, hleft⟩
        have hfirst := string_char_plain hascii hquote hlone rest
        exact ⟨_, many_some string_char_progresses hfirst hmore, rfl⟩

/-- A quoted string is read as it stands exactly where it survives. -/
theorem yields_string (text rest : Text) :
    Yields unescStr (· = text) (quoted text ++ rest) rest (survives text = true) := by
  have hquoted : quoted text ++ rest = ch '"' :: (text ++ ch '"' :: rest) := by simp [quoted]
  have hopen : lit '"' (ch '"' :: (text ++ ch '"' :: rest)) =
      some (ch '"', text ++ ch '"' :: rest) := rfl
  have hclose : lit '"' (ch '"' :: rest) = some (ch '"', rest) := rfl
  have hparts := (yields_of_some (fun _ => True) hopen).seq
    ((yields_string_chars text rest).seq (yields_of_some (fun _ => True) hclose))
  have htext : Yields
      (map (fun parts => parts.2.1) (seq (lit '"') (seq (many stringChar) (lit '"'))))
      (· = text) (ch '"' :: (text ++ ch '"' :: rest)) rest (survives text = true) :=
    ((hparts.good_iff (by simp)).iff (by simp)).map
  rw [hquoted]
  exact htext.congr rfl

/-! ## Values -/

mutual
/-- The values are the same, their numbers aside. -/
def SameStrings : Value → Value → Prop
  | .null, .null => True
  | .number _, .number _ => True
  | .bool a, .bool b => a = b
  | .string text, .string other => text = other
  | .object keys, .object others => SameKeys keys others
  | .array vals, .array others => SameVals vals others
  | _, _ => False

/-- `SameStrings` for the pairs of objects. -/
def SameKeys : List (Text × Value) → List (Text × Value) → Prop
  | [], [] => True
  | (key, val) :: keys, (other, val') :: others =>
      (key = other ∧ SameStrings val val') ∧ SameKeys keys others
  | _, _ => False

/-- `SameStrings` for the elements of arrays. -/
def SameVals : List Value → List Value → Prop
  | [], [] => True
  | val :: vals, val' :: others => SameStrings val val' ∧ SameVals vals others
  | _, _ => False
end

mutual
/-- Every string and key in the value survives. -/
def StringsSurvive : Value → Prop
  | .string text => survives text = true
  | .object keys => KeysSurvive keys
  | .array vals => ValsSurvive vals
  | _ => True

/-- `StringsSurvive` for the pairs of an object. -/
def KeysSurvive : List (Text × Value) → Prop
  | [] => True
  | (key, val) :: keys => (survives key = true ∧ StringsSurvive val) ∧ KeysSurvive keys

/-- `StringsSurvive` for the elements of an array. -/
def ValsSurvive : List Value → Prop
  | [] => True
  | val :: vals => StringsSurvive val ∧ ValsSurvive vals
end

theorem same_vals_cons (val : Value) (vals others : List Value) :
    (∃ val' others', others = val' :: others' ∧ SameStrings val val' ∧ SameVals vals others') ↔
      SameVals (val :: vals) others := by
  cases others with
  | nil => simp [SameVals]
  | cons val' others => simp [SameVals]

theorem same_keys_cons (key : Text) (val : Value) (keys others : List (Text × Value)) :
    (∃ entry others', others = entry :: others' ∧
      (key = entry.1 ∧ SameStrings val entry.2) ∧ SameKeys keys others') ↔
      SameKeys ((key, val) :: keys) others := by
  cases others with
  | nil => simp [SameKeys]
  | cons entry others =>
      obtain ⟨other, val'⟩ := entry
      simp [SameKeys]

/-- What follows an element: nothing, a comma or a closing bracket. -/
def Delimited (rest : Text) : Prop := rest = [] ∨
  ∃ c behind, rest = c :: behind ∧ (c = ch ',' ∨ c = ch ']' ∨ c = ch '}')

theorem Delimited.behind {rest : Text} (h : Delimited rest) : Behind rest := by
  rcases h with rfl | ⟨c, behind, rfl, hc⟩
  · exact .nil
  · exact .cons behind (.inr hc)

variable [Platform]

omit [Platform] in
/-- What the alternatives behind the arrays give. -/
theorem last_alternatives {input left : Text} {v : Value}
    (h : alt (token nullS) (alt (map .array emptyArrayR) (map .object emptyObjectR)) input =
      some (v, left)) : v = .null ∨ v = .array [] ∨ v = .object [] := by
  rcases alt_eq_some h with hnull | ⟨-, hempty⟩
  · have htable : symbols [(str "null", Value.null)] (input.dropWhile isSpace) = some (v, left) :=
      hnull
    obtain ⟨key, hkey, -⟩ := symbols_eq_some htable
    exact .inl (Prod.mk.inj (List.mem_singleton.mp hkey)).2
  rcases alt_eq_some hempty with harray | ⟨-, hobject⟩
  · obtain ⟨vals, hvals, rfl⟩ := map_eq_some harray
    obtain ⟨_, _, rfl⟩ := map_eq_some hvals
    exact .inr (.inl rfl)
  · obtain ⟨keys, hkeys, rfl⟩ := map_eq_some hobject
    obtain ⟨_, _, rfl⟩ := map_eq_some hkeys
    exact .inr (.inr rfl)

/-- What the printer writes behind an element. -/
def moreVals (vals : List Value) : Text :=
  (if vals.isEmpty then [] else [ch ',']) ++ printVals vals

/-- What the printer writes behind a pair. -/
def moreKeys (keys : List (Text × Value)) : Text :=
  (if keys.isEmpty then [] else [ch ',']) ++ printKeys keys

omit [Platform] in
theorem more_vals_cons (val : Value) (vals : List Value) (rest : Text) :
    moreVals (val :: vals) ++ rest =
      ch ',' :: (jsonValuePrinter val ++ (moreVals vals ++ rest)) := by
  simp [moreVals, printVals]

omit [Platform] in
theorem more_keys_cons (key : Text) (val : Value) (keys : List (Text × Value)) (rest : Text) :
    moreKeys ((key, val) :: keys) ++ rest =
      ch ',' :: (quoted key ++ ch ':' :: (jsonValuePrinter val ++ (moreKeys keys ++ rest))) := by
  simp [moreKeys, printKeys]

omit [Platform] in
theorem delimited_vals (vals : List Value) (rest : Text) :
    Delimited (moreVals vals ++ ch ']' :: rest) := by
  cases vals with
  | nil => exact .inr ⟨ch ']', rest, rfl, .inr (.inl rfl)⟩
  | cons val vals => exact .inr ⟨ch ',', _, more_vals_cons val vals _, .inl rfl⟩

omit [Platform] in
theorem delimited_keys (keys : List (Text × Value)) (rest : Text) :
    Delimited (moreKeys keys ++ ch '}' :: rest) := by
  cases keys with
  | nil => exact .inr ⟨ch '}', rest, rfl, .inr (.inr rfl)⟩
  | cons entry keys => exact .inr ⟨ch ',', _, more_keys_cons entry.1 entry.2 keys _, .inl rfl⟩

/-- A key, the colon and the value behind it. -/
theorem yields_keyval (key : Text) {val : Value} {rest : Text}
    (h : Yields jsonR (SameStrings val) (jsonValuePrinter val ++ rest) rest (StringsSurvive val)) :
    Yields (keyvalR jsonR) (fun entry => key = entry.1 ∧ SameStrings val entry.2)
      (quoted key ++ ch ':' :: (jsonValuePrinter val ++ rest)) rest
      (survives key = true ∧ StringsSurvive val) := by
  have hcolon : token (lit ':') (ch ':' :: (jsonValuePrinter val ++ rest)) =
      some (ch ':', jsonValuePrinter val ++ rest) := rfl
  have hparts := (yields_string key _).seq ((yields_of_some (fun _ => True) hcolon).seq h)
  apply Yields.map
  exact (hparts.good_iff fun _ => by rw [true_and, eq_comm]).iff (by rw [true_and])

omit [Platform] in
/-- The repetition in a list takes a comma each time. -/
theorem more_progresses {α : Type} {p : Parser Byte α} (hp : NonGrowing p) :
    Progresses (map Prod.snd (seq (token (lit ',')) p)) :=
  map_progresses (seq_progresses (lit_progresses ',') hp)

mutual
/-- `json_r` reads what the printer wrote, numbers aside, exactly where the strings survive. -/
theorem yields_print (v : Value) {rest : Text} (hrest : Delimited rest) :
    Yields jsonR (SameStrings v) (jsonValuePrinter v ++ rest) rest (StringsSurvive v) := by
  apply Yields.congr _ (json_r_eq _)
  match v with
  | .null =>
      have hread : jsonBody jsonR (str "null" ++ rest) = some (.null, rest) := rfl
      exact yields_of_some (SameStrings .null) hread
  | .number x =>
      have hread := reads_means (.number _ _ (numeral_fixed_text x)) fun _ _ => hrest.behind
      rw [json_r_eq] at hread
      exact yields_of_some (SameStrings (.number x)) hread
  | .bool b =>
      have hread : jsonBody jsonR ((if b then str "true" else str "false") ++ rest) =
          some (.bool b, rest) := by
        cases b <;> rfl
      exact (yields_of_some (SameStrings (.bool b)) hread).iff ⟨fun _ => trivial, fun _ => rfl⟩
  | .string text =>
      have hstring : Yields (map .string unescStr) (SameStrings (.string text))
          (quoted text ++ rest) rest (survives text = true) :=
        Yields.map ((yields_string text rest).good_iff fun _ => eq_comm)
      apply Yields.second (Yields.second (Yields.first hstring ?_) rfl) rfl
      intro w left hlater
      exact absurd hlater nofun
  | .object [] =>
      have hread : jsonBody jsonR (ch '{' :: ch '}' :: rest) = some (.object [], rest) := rfl
      exact yields_of_some (SameStrings (.object [])) hread
  | .object ((key, val) :: keys) =>
      have hsplit : jsonValuePrinter (.object ((key, val) :: keys)) ++ rest =
          ch '{' :: (quoted key ++ ch ':' ::
            (jsonValuePrinter val ++ (moreKeys keys ++ ch '}' :: rest))) := by
        simp [jsonValuePrinter, printKeys, moreKeys]
      have hlist := (yields_keyval key (yields_print val (delimited_keys keys rest))).list
        (yields_more_keys keys rest)
      have hopen := yields_of_some (fun _ => True) (show token (lit '{') (ch '{' :: (quoted key ++
        ch ':' :: (jsonValuePrinter val ++ (moreKeys keys ++ ch '}' :: rest)))) =
          some (ch '{', _) from rfl)
      have hclose := yields_of_some (fun _ => True)
        (show token (lit '}') (ch '}' :: rest) = some (ch '}', rest) from rfl)
      have hobject : Yields (map .object (objectR jsonR))
          (SameStrings (.object ((key, val) :: keys))) _ rest
          (KeysSurvive ((key, val) :: keys)) :=
        Yields.map (Yields.map (((hopen.seq (hlist.seq hclose)).good_iff fun abc => by
          rw [true_and, and_true]
          exact same_keys_cons key val keys abc.2.1).iff (by simp [KeysSurvive])))
      rw [hsplit]
      apply Yields.second (Yields.second (Yields.second (Yields.first hobject ?_) rfl) rfl) rfl
      intro w left hlater
      rcases alt_eq_some hlater with hlater | ⟨-, hlater⟩
      · exact absurd hlater nofun
      · rcases last_alternatives hlater with rfl | rfl | rfl <;> exact id
  | .array [] =>
      have hread : jsonR (ch '[' :: ch ']' :: rest) = some (.array [], rest) :=
        reads_means (.emptyArray [] .nil) nofun
      rw [json_r_eq] at hread
      exact yields_of_some (SameStrings (.array [])) hread
  | .array (val :: vals) =>
      have hsplit : jsonValuePrinter (.array (val :: vals)) ++ rest =
          ch '[' :: (jsonValuePrinter val ++ (moreVals vals ++ ch ']' :: rest)) := by
        simp [jsonValuePrinter, printVals, moreVals]
      have hlist := (yields_print val (delimited_vals vals rest)).list (yields_more_vals vals rest)
      have hopen := yields_of_some (fun _ => True) (show token (lit '[')
        (ch '[' :: (jsonValuePrinter val ++ (moreVals vals ++ ch ']' :: rest))) =
          some (ch '[', _) from rfl)
      have hclose := yields_of_some (fun _ => True)
        (show token (lit ']') (ch ']' :: rest) = some (ch ']', rest) from rfl)
      have harray : Yields (map .array (arrayR jsonR)) (SameStrings (.array (val :: vals))) _ rest
          (ValsSurvive (val :: vals)) :=
        Yields.map (Yields.map (((hopen.seq (hlist.seq hclose)).good_iff fun abc => by
          rw [true_and, and_true]
          exact same_vals_cons val vals abc.2.1).iff (by simp [ValsSurvive])))
      rw [hsplit]
      apply Yields.second (Yields.second (Yields.second (Yields.second (Yields.first harray ?_)
        rfl) rfl) rfl) rfl
      intro w left hlater
      rcases last_alternatives hlater with rfl | rfl | rfl <;> exact id

/-- The elements of an array behind the first one, up to the bracket. -/
theorem yields_more_vals (vals : List Value) (rest : Text) :
    Yields (many (map Prod.snd (seq (token (lit ',')) jsonR))) (SameVals vals)
      (moreVals vals ++ ch ']' :: rest) (ch ']' :: rest) (ValsSurvive vals) := by
  match vals with
  | [] =>
      have hdone : map Prod.snd (seq (token (lit ',')) jsonR) (ch ']' :: rest) = none := rfl
      apply ((yields_many_nil hdone).good_iff ?_).iff (by simp [ValsSurvive])
      intro others
      cases others <;> simp [SameVals]
  | val :: vals =>
      rw [more_vals_cons]
      have hcomma := yields_of_some (fun _ => True) (show token (lit ',')
        (ch ',' :: (jsonValuePrinter val ++ (moreVals vals ++ ch ']' :: rest))) =
          some (ch ',', _) from rfl)
      have hval := hcomma.seq (yields_print val (delimited_vals vals rest))
      have hpiece : Yields (map Prod.snd (seq (token (lit ',')) jsonR)) (SameStrings val) _ _
          (StringsSurvive val) :=
        Yields.map ((hval.good_iff fun _ => by rw [true_and]).iff (by rw [true_and]))
      have hmore := hpiece.many_cons (more_progresses (fix_non_growing json_body_guarded))
        (yields_more_vals vals rest)
      exact hmore.good_iff (same_vals_cons val vals)

/-- The pairs of an object behind the first one, up to the bracket. -/
theorem yields_more_keys (keys : List (Text × Value)) (rest : Text) :
    Yields (many (map Prod.snd (seq (token (lit ',')) (keyvalR jsonR)))) (SameKeys keys)
      (moreKeys keys ++ ch '}' :: rest) (ch '}' :: rest) (KeysSurvive keys) := by
  match keys with
  | [] =>
      have hdone : map Prod.snd (seq (token (lit ',')) (keyvalR jsonR)) (ch '}' :: rest) = none :=
        rfl
      apply ((yields_many_nil hdone).good_iff ?_).iff (by simp [KeysSurvive])
      intro others
      cases others <;> simp [SameKeys]
  | (key, val) :: keys =>
      rw [more_keys_cons]
      have hcomma := yields_of_some (fun _ => True) (show token (lit ',') (ch ',' ::
        (quoted key ++ ch ':' :: (jsonValuePrinter val ++ (moreKeys keys ++ ch '}' :: rest)))) =
          some (ch ',', _) from rfl)
      have hpair := hcomma.seq (yields_keyval key (yields_print val (delimited_keys keys rest)))
      have hpiece : Yields (map Prod.snd (seq (token (lit ',')) (keyvalR jsonR)))
          (fun entry => key = entry.1 ∧ SameStrings val entry.2) _ _
          (survives key = true ∧ StringsSurvive val) :=
        Yields.map ((hpair.good_iff fun _ => by rw [true_and]).iff (by rw [true_and]))
      have hmore := hpiece.many_cons (more_progresses
        (keyval_r_local.non_growing _ (fix_non_growing json_body_guarded)))
        (yields_more_keys keys rest)
      exact hmore.good_iff (same_keys_cons key val keys)
end

/-- Reading what was written gives the value back with exactly its strings, whatever becomes of
its numbers, if and only if the counters of the printer reach the sizes of its vectors and every
string and key in it survives. -/
theorem strings_survive_iff (v : Value) :
    (∃ text w, write v false = some text ∧ read text = .ok w ∧ SameStrings v w) ↔
      counted v = true ∧ StringsSurvive v := by
  have hprint := yields_print v (.inl rfl)
  rw [List.append_nil] at hprint
  constructor
  · rintro ⟨text, w, hwrite, hread, hsame⟩
    have hcount := (write_returns_iff v false).mp ⟨text, hwrite⟩
    have htext : jsonValuePrinter v = text := by simpa [write, hcount] using hwrite
    refine ⟨hcount, ?_⟩
    unfold read at hread
    split at hread
    · rename_i u left hjson
      obtain rfl := Except.ok.inj hread
      rw [← htext] at hjson
      exact ((hprint left).mp ⟨u, hjson, hsame⟩).1
    · cases hread
  · rintro ⟨hcount, hsurvive⟩
    obtain ⟨w, hjson, hsame⟩ := (hprint []).mpr ⟨hsurvive, rfl⟩
    refine ⟨jsonValuePrinter v, w, by simp [write, hcount], ?_, hsame⟩
    unfold read
    rw [hjson]

omit [Platform] in
/-- A quote ends the string that it is written into, and the rest of the text is ignored. -/
theorem quote_lost :
    write (.string (str "\"")) false = some (str "\"\"\"") ∧
      @read (.exact false) (str "\"\"\"") = .ok (.string []) ∧
      ¬ SameStrings (.string (str "\"")) (.string []) :=
  ⟨rfl, rfl, nofun⟩

end BoostRpc.Json
