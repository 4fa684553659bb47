import BoostRpc.Json.Notation

/-!
# What JSON texts mean

The relaxed grammar with values: `Means text v` says that `text` is the value `v` in the notation
that the reader takes, with the numbers that `qi::double_` makes of the numerals and the strings
that the escapes of the table stand for. Every relaxed text means something (`text_means`), and
nothing else does (`Means.text`).
-/

namespace BoostRpc.Json

/-! ## Numerals -/

/-- A sign, and whether it is negative. -/
inductive SignOf : Text → Bool → Prop where
  | none : SignOf [] false
  | minus : SignOf [ch '-'] true
  | plus : SignOf [ch '+'] false

/-- An exponent, or none, and its value. -/
inductive ExponentOf : Text → Int → Prop where
  | none : ExponentOf [] 0
  | some (c : Byte) (sgn digits : Text) (negative : Bool) : c = ch 'e' ∨ c = ch 'E' →
      SignOf sgn negative → Digits digits → digits ≠ [] →
      ExponentOf (c :: (sgn ++ digits))
        (if negative then -digitsValue digits else digitsValue digits)

section Values

variable [Platform]

/-- A numeral of `double_`, and the `double` it stands for. -/
inductive NumeralOf : Text → Double → Prop where
  | nan (sgn word payload : Text) (negative : Bool) : SignOf sgn negative →
      AnyCase (str "nan") (str "NAN") word → NanPayload payload →
      NumeralOf (sgn ++ (word ++ payload)) .nan
  | infinity (sgn word tail : Text) (negative : Bool) : SignOf sgn negative →
      AnyCase (str "inf") (str "INF") word →
      tail = [] ∨ AnyCase (str "inity") (str "INITY") tail →
      NumeralOf (sgn ++ (word ++ tail)) (.infinity negative)
  | decimal (sgn int exp : Text) (negative : Bool) (e : Int) : SignOf sgn negative → Digits int →
      int ≠ [] → ExponentOf exp e →
      NumeralOf (sgn ++ (int ++ exp)) (Platform.ofNumeral (numeralValue negative int [] e))
  | fraction (sgn int frac exp : Text) (negative : Bool) (e : Int) : SignOf sgn negative →
      Digits int → Digits frac → int ≠ [] ∨ frac ≠ [] → ExponentOf exp e →
      NumeralOf (sgn ++ (int ++ ch '.' :: (frac ++ exp)))
        (Platform.ofNumeral (numeralValue negative int frac e))

/-! ## Strings -/

/-- The characters between quotes, and the string that they stand for. -/
inductive Unescapes : Text → Text → Prop where
  | nil : Unescapes [] []
  | char (c : Byte) (text s : Text) : isAscii c = true → c ≠ ch '"' →
      (c = ch '\\' → loneBackslash text = true) → Unescapes text s → Unescapes (c :: text) (c :: s)
  | escape (c d : Byte) (text s : Text) : escape c = some d → Unescapes text s →
      Unescapes (ch '\\' :: c :: text) (d :: s)

/-! ## Values -/

mutual
/-- The value that a text without white space around it means. -/
inductive Means : Text → Value → Prop where
  | null : Means (str "null") .null
  | bool (b : Bool) : Means (if b then str "true" else str "false") (.bool b)
  | number (text : Text) (x : Double) : NumeralOf text x → Means text (.number x)
  | string (text s : Text) : Unescapes text s → Means (quoted text) (.string s)
  | emptyObject (space : Text) : Spaces space → Means (ch '{' :: (space ++ [ch '}'])) (.object [])
  | object (body : Text) (keys : Object) : MeansMembers body keys →
      Means (ch '{' :: (body ++ [ch '}'])) (.object keys)
  | emptyArray (space : Text) : Spaces space → Means (ch '[' :: (space ++ [ch ']'])) (.array [])
  | array (body : Text) (vals : List Value) : MeansElements body vals →
      Means (ch '[' :: (body ++ [ch ']'])) (.array vals)

/-- The pairs that the members of an object mean. -/
inductive MeansMembers : Text → Object → Prop where
  | last (before key middle behind text after name : Text) (v : Value) :
      Spaces before → Unescapes key name → Spaces middle → Spaces behind → Means text v →
      Spaces after →
      MeansMembers (before ++ (quoted key ++ (middle ++ ch ':' :: (behind ++ (text ++ after)))))
        [(name, v)]
  | cons (before key middle behind text after body name : Text) (v : Value) (keys : Object) :
      Spaces before → Unescapes key name → Spaces middle → Spaces behind → Means text v →
      Spaces after → MeansMembers body keys →
      MeansMembers (before ++ (quoted key ++
        (middle ++ ch ':' :: (behind ++ (text ++ (after ++ ch ',' :: body)))))) ((name, v) :: keys)

/-- The values that the elements of an array mean. -/
inductive MeansElements : Text → List Value → Prop where
  | last (before text after : Text) (v : Value) :
      Spaces before → Means text v → Spaces after →
      MeansElements (before ++ (text ++ after)) [v]
  | cons (before text after body : Text) (v : Value) (vals : List Value) :
      Spaces before → Means text v → Spaces after → MeansElements body vals →
      MeansElements (before ++ (text ++ (after ++ ch ',' :: body))) (v :: vals)
end

/-! ## Meanings and texts -/

omit [Platform] in
theorem SignOf.is_sign {sgn : Text} {negative : Bool} (h : SignOf sgn negative) :
    sgn = [] ∨ sgn = [ch '-'] ∨ sgn = [ch '+'] := by
  cases h with
  | none => exact .inl rfl
  | minus => exact .inr (.inl rfl)
  | plus => exact .inr (.inr rfl)

omit [Platform] in
theorem sign_of {sgn : Text} (h : sgn = [] ∨ sgn = [ch '-'] ∨ sgn = [ch '+']) :
    ∃ negative, SignOf sgn negative := by
  rcases h with rfl | rfl | rfl
  · exact ⟨false, .none⟩
  · exact ⟨true, .minus⟩
  · exact ⟨false, .plus⟩

omit [Platform] in
theorem ExponentOf.text {exp : Text} {e : Int} (h : ExponentOf exp e) : ExponentText exp := by
  cases h with
  | none => exact .none
  | some c sgn digits negative hc hsgn hdigits hne =>
      exact .some c sgn digits hc hsgn.is_sign hdigits hne

omit [Platform] in
theorem exponent_of {exp : Text} (h : ExponentText exp) : ∃ e, ExponentOf exp e := by
  cases h with
  | none => exact ⟨0, .none⟩
  | some c sgn digits hc hsgn hdigits hne =>
      obtain ⟨negative, hnegative⟩ := sign_of hsgn
      exact ⟨_, .some c sgn digits negative hc hnegative hdigits hne⟩

theorem NumeralOf.text {text : Text} {x : Double} (h : NumeralOf text x) : RelaxedNumber text := by
  cases h with
  | nan sgn word payload negative hsgn hword hpayload =>
      exact .nan sgn word payload hsgn.is_sign hword hpayload
  | infinity sgn word tail negative hsgn hword htail =>
      exact .infinity sgn word tail hsgn.is_sign hword htail
  | decimal sgn int exp negative e hsgn hint hne hexp =>
      exact .decimal sgn int exp hsgn.is_sign hint hne hexp.text
  | fraction sgn int frac exp negative e hsgn hint hfrac hne hexp =>
      exact .fraction sgn int frac exp hsgn.is_sign hint hfrac hne hexp.text

theorem numeral_of {text : Text} (h : RelaxedNumber text) : ∃ x, NumeralOf text x := by
  cases h with
  | nan sgn word payload hsgn hword hpayload =>
      obtain ⟨negative, hnegative⟩ := sign_of hsgn
      exact ⟨_, .nan sgn word payload negative hnegative hword hpayload⟩
  | infinity sgn word tail hsgn hword htail =>
      obtain ⟨negative, hnegative⟩ := sign_of hsgn
      exact ⟨_, .infinity sgn word tail negative hnegative hword htail⟩
  | decimal sgn int exp hsgn hint hne hexp =>
      obtain ⟨negative, hnegative⟩ := sign_of hsgn
      obtain ⟨e, he⟩ := exponent_of hexp
      exact ⟨_, .decimal sgn int exp negative e hnegative hint hne he⟩
  | fraction sgn int frac exp hsgn hint hfrac hne hexp =>
      obtain ⟨negative, hnegative⟩ := sign_of hsgn
      obtain ⟨e, he⟩ := exponent_of hexp
      exact ⟨_, .fraction sgn int frac exp negative e hnegative hint hfrac hne he⟩

omit [Platform] in
theorem Unescapes.chars {text s : Text} (h : Unescapes text s) : RelaxedChars text := by
  induction h with
  | nil => exact .nil
  | char c text s hascii hquote hback _ ih => exact .char c text hascii hquote hback ih
  | escape c d text s hc _ ih => exact .escape c text (by rw [hc]; rfl) ih

omit [Platform] in
theorem unescapes {text : Text} (h : RelaxedChars text) : ∃ s, Unescapes text s := by
  induction h with
  | nil => exact ⟨[], .nil⟩
  | char c text hascii hquote hback _ ih =>
      obtain ⟨s, hs⟩ := ih
      exact ⟨c :: s, .char c text s hascii hquote hback hs⟩
  | escape c text hc _ ih =>
      obtain ⟨s, hs⟩ := ih
      obtain ⟨d, hd⟩ := Option.isSome_iff_exists.mp hc
      exact ⟨d :: s, .escape c d text s hd hs⟩

omit [Platform] in
/-- A character that is no backslash stands for itself. -/
theorem Unescapes.plain {c : Byte} {text s : Text} (hascii : isAscii c = true) (hquote : c ≠ ch '"')
    (hback : c ≠ ch '\\') (h : Unescapes text s) : Unescapes (c :: text) (c :: s) :=
  .char c text s hascii hquote (fun hc => absurd hc hback) h

mutual
/-- What means a value is a relaxed text. -/
theorem Means.text {text : Text} {v : Value} : Means text v → JsonText relaxed text
  | .null => .null
  | .bool b => .bool b
  | .number text _ hn => .number text hn.text
  | .string text _ hs => .string text hs.chars
  | .emptyObject space hs => .emptyObject space hs
  | .object body _ hbody => .object body hbody.text
  | .emptyArray space hs => .emptyArray space hs
  | .array body _ hbody => .array body hbody.text

theorem MeansMembers.text {body : Text} {keys : Object} :
    MeansMembers body keys → MembersText relaxed body
  | .last before key middle behind text after _ _ h1 hk h2 h3 ht h4 =>
      .last before key middle behind text after h1 hk.chars h2 h3 ht.text h4
  | .cons before key middle behind text after body _ _ _ h1 hk h2 h3 ht h4 hbody =>
      .cons before key middle behind text after body h1 hk.chars h2 h3 ht.text h4 hbody.text

theorem MeansElements.text {body : Text} {vals : List Value} :
    MeansElements body vals → ElementsText relaxed body
  | .last before text after _ h1 ht h2 => .last before text after h1 ht.text h2
  | .cons before text after body _ _ h1 ht h2 hbody =>
      .cons before text after body h1 ht.text h2 hbody.text
end

mutual
/-- Every relaxed text means something. -/
theorem text_means {text : Text} : JsonText relaxed text → ∃ v, Means text v
  | .null => ⟨.null, .null⟩
  | .bool b => ⟨.bool b, .bool b⟩
  | .number text hn =>
      let ⟨x, hx⟩ := numeral_of hn
      ⟨.number x, .number text x hx⟩
  | .string text hc =>
      let ⟨s, hs⟩ := unescapes hc
      ⟨.string s, .string text s hs⟩
  | .emptyObject space hs => ⟨.object [], .emptyObject space hs⟩
  | .object body hbody =>
      let ⟨keys, hkeys⟩ := members_mean hbody
      ⟨.object keys, .object body keys hkeys⟩
  | .emptyArray space hs => ⟨.array [], .emptyArray space hs⟩
  | .array body hbody =>
      let ⟨vals, hvals⟩ := elements_mean hbody
      ⟨.array vals, .array body vals hvals⟩

theorem members_mean {body : Text} : MembersText relaxed body → ∃ keys, MeansMembers body keys
  | .last before key middle behind text after h1 hk h2 h3 ht h4 =>
      let ⟨name, hname⟩ := unescapes hk
      let ⟨v, hv⟩ := text_means ht
      ⟨_, .last before key middle behind text after name v h1 hname h2 h3 hv h4⟩
  | .cons before key middle behind text after body h1 hk h2 h3 ht h4 hbody =>
      let ⟨name, hname⟩ := unescapes hk
      let ⟨v, hv⟩ := text_means ht
      let ⟨keys, hkeys⟩ := members_mean hbody
      ⟨_, .cons before key middle behind text after body name v keys h1 hname h2 h3 hv h4 hkeys⟩

theorem elements_mean {body : Text} : ElementsText relaxed body → ∃ vals, MeansElements body vals
  | .last before text after h1 ht h2 =>
      let ⟨v, hv⟩ := text_means ht
      ⟨_, .last before text after v h1 hv h2⟩
  | .cons before text after body h1 ht h2 hbody =>
      let ⟨v, hv⟩ := text_means ht
      let ⟨vals, hvals⟩ := elements_mean hbody
      ⟨_, .cons before text after body v vals h1 hv h2 hvals⟩
end

/-- Members behind members, with a comma between them. -/
theorem MeansMembers.append {body other : Text} {keys others : Object}
    (h : MeansMembers body keys) (h' : MeansMembers other others) :
    MeansMembers (body ++ ch ',' :: other) (keys ++ others) := by
  match h with
  | .last before key middle behind text after name v h1 hk h2 h3 ht h4 =>
      simpa using MeansMembers.cons before key middle behind text after other name v others h1 hk h2
        h3 ht h4 h'
  | .cons before key middle behind text after body name v keys h1 hk h2 h3 ht h4 hbody =>
      simpa using MeansMembers.cons before key middle behind text after _ name v _ h1 hk h2 h3 ht h4
        (hbody.append h')

/-- White space may be added in front of the members. -/
theorem MeansMembers.prepend {space body : Text} {keys : Object} (hs : Spaces space)
    (h : MeansMembers body keys) : MeansMembers (space ++ body) keys := by
  cases h with
  | last before key middle behind text after name v h1 hk h2 h3 ht h4 =>
      rw [← List.append_assoc]
      exact .last _ key middle behind text after name v (hs.append h1) hk h2 h3 ht h4
  | cons before key middle behind text after body name v keys h1 hk h2 h3 ht h4 hbody =>
      rw [← List.append_assoc]
      exact .cons _ key middle behind text after body name v keys (hs.append h1) hk h2 h3 ht h4
        hbody

/-- White space may be added in front of the elements. -/
theorem MeansElements.prepend {space body : Text} {vals : List Value} (hs : Spaces space)
    (h : MeansElements body vals) : MeansElements (space ++ body) vals := by
  cases h with
  | last before text after v h1 ht h2 =>
      rw [← List.append_assoc]
      exact .last _ text after v (hs.append h1) ht h2
  | cons before text after body v vals h1 ht h2 hbody =>
      rw [← List.append_assoc]
      exact .cons _ text after body v vals (hs.append h1) ht h2 hbody

/-- White space may be added behind the members. -/
theorem MeansMembers.trail {space body : Text} {keys : Object} (hs : Spaces space)
    (h : MeansMembers body keys) : MeansMembers (body ++ space) keys := by
  match h with
  | .last before key middle behind text after name v h1 hk h2 h3 ht h4 =>
      simpa using MeansMembers.last before key middle behind text _ name v h1 hk h2 h3 ht
        (h4.append hs)
  | .cons before key middle behind text after body name v keys h1 hk h2 h3 ht h4 hbody =>
      simpa using MeansMembers.cons before key middle behind text after _ name v keys h1 hk h2 h3
        ht h4 (hbody.trail hs)

/-- White space may be added behind the elements. -/
theorem MeansElements.trail {space body : Text} {vals : List Value} (hs : Spaces space)
    (h : MeansElements body vals) : MeansElements (body ++ space) vals := by
  match h with
  | .last before text after v h1 ht h2 =>
      simpa using MeansElements.last before text _ v h1 ht (h2.append hs)
  | .cons before text after body v vals h1 ht h2 hbody =>
      simpa using MeansElements.cons before text after _ v vals h1 ht h2 (hbody.trail hs)

end Values

end BoostRpc.Json
