import BoostRpc.Text

/-!
# Base64

`base64_encode` and `base64_decode`. Both loops collect characters until a group is full;
`encode_eq` takes the encoder group by group, and `decode_encoded` reads the groups back. The
counters of the decoder are of type `int`, so that it reads back only what is encoded in fewer than
2^31 characters: `decode_encode_iff`.
-/

namespace BoostRpc.Base64

/-- `base64_chars` -/
def base64Chars : Text :=
  str "ABCDEFGHIJKLMNOPQRSTUVWXYZabcdefghijklmnopqrstuvwxyz0123456789+/"

/-- `isalnum` in the "C" locale. -/
def isAlnum (c : Byte) : Bool :=
  isDigit c || (ch 'A' ≤ c && c ≤ ch 'Z') || (ch 'a' ≤ c && c ≤ ch 'z')

/-- `is_base64` -/
def isBase64 (c : Byte) : Bool := isAlnum c || c == ch '+' || c == ch '/'

/-! ## Encoding -/

/-- `char_array_4` from the bytes of `char_array_3`. -/
def charArray4 (b0 b1 b2 : Byte) : List Byte :=
  [(b0 &&& 0xfc) >>> 2,
    ((b0 &&& 0x03) <<< 4) + ((b1 &&& 0xf0) >>> 4),
    ((b1 &&& 0x0f) <<< 2) + ((b2 &&& 0xc0) >>> 6),
    b2 &&& 0x3f]

/-- `base64_chars()[a]` -/
def charAt (a : Byte) : Byte := base64Chars.getD a.toNat 0

/-- The loop of `base64_encode`: the bytes in `char_array_3` and `ret` behind it. -/
def encodeLoop : Text → Text → Text → Text × Text
  | [], group, ret => (group, ret)
  | b :: bytes, [b0, b1], ret => encodeLoop bytes [] (ret ++ (charArray4 b0 b1 b).map charAt)
  | b :: bytes, group, ret => encodeLoop bytes (group ++ [b]) ret

/-- What `base64_encode` makes of the last bytes, which do not fill a group. -/
def encodeRest (group ret : Text) : Text :=
  if group = [] then ret
  else ret ++ ((charArray4 (group.getD 0 0) (group.getD 1 0) (group.getD 2 0)).take
    (group.length + 1)).map charAt ++ List.replicate (3 - group.length) (ch '=')

/-- `base64_encode` -/
def base64Encode (bytesToEncode : Text) (inLen : UInt32) : Text :=
  let (group, ret) := encodeLoop (bytesToEncode.take inLen.toNat) [] []
  encodeRest group ret

/-! ## Decoding -/

/-- `base64_chars().find(c)` as an `unsigned char`. -/
def find (c : Byte) : Byte :=
  match base64Chars.findIdx? (· == c) with
  | some n => UInt8.ofNat n
  | none => 255

/-- `char_array_3` from the numbers in `char_array_4`. -/
def charArray3 (a0 a1 a2 a3 : Byte) : List Byte :=
  [(a0 <<< 2) + ((a1 &&& 0x30) >>> 4),
    ((a1 &&& 0xf) <<< 4) + ((a2 &&& 0x3c) >>> 2),
    ((a2 &&& 0x3) <<< 6) + a3]

/-- The loop condition of `base64_decode` in front of the characters that are left, where it is
`'\0'` at the end. -/
def goesOn (inLen : Int) (rest : Text) : Bool :=
  inLen != 0 && rest.head?.any fun c => c != ch '=' && isBase64 c

/-- The loop of `base64_decode`: the characters in `char_array_4` and `ret` behind it, unless one of
its counters overflows. -/
def decodeLoop : Text → Int → Nat → Text → Text → Option (Text × Text)
  | [], inLen, _, group, ret => if inLen = -(2 ^ 31) then none else some (group, ret)
  | c :: rest, inLen, pos, group, ret =>
      -- `in_len--` in the loop condition
      if inLen = -(2 ^ 31) then none
      else if goesOn inLen (c :: rest) then
        -- `in_++`
        if pos = 2 ^ 31 - 1 then none
        else
          match group with
          | [a0, a1, a2] =>
              decodeLoop rest (inLen - 1) (pos + 1) []
                (ret ++ charArray3 (find a0) (find a1) (find a2) (find c))
          | group => decodeLoop rest (inLen - 1) (pos + 1) (group ++ [c]) ret
      else some (group, ret)

/-- What `base64_decode` makes of the last characters, which do not fill a group. -/
def decodeRest (group ret : Text) : Text :=
  ret ++ (charArray3 (find (group.getD 0 0)) (find (group.getD 1 0)) (find (group.getD 2 0))
    (find (group.getD 3 0))).take (group.length - 1)

/-- `in_len` of `base64_decode`: the size of the string as an `int`. -/
def inLen (encodedString : Text) : Int := (Int32.ofNat encodedString.length).toInt

/-- `base64_decode`, unless one of its counters overflows. -/
def base64Decode (encodedString : Text) : Option Text := do
  let (group, ret) ← decodeLoop encodedString (inLen encodedString) 0 [] []
  return decodeRest group ret

/-! ## One group -/

/-- The low bits of a byte, shifted to the left. -/
theorem masked_left {b m s : Byte} {k n : Nat} (hm : m.toNat = 2 ^ k - 1) (hs : s.toNat % 8 = n) :
    ((b &&& m) <<< s).toNat = b.toNat % 2 ^ k * 2 ^ n % 2 ^ 8 := by
  rw [UInt8.toNat_shiftLeft, UInt8.toNat_and, hm, hs, Nat.and_two_pow_sub_one_eq_mod,
    Nat.shiftLeft_eq]

/-- The bits that a mask leaves at the right. -/
theorem masked_right {b m s : Byte} {k n : Nat} (hm : m.toNat >>> n = 2 ^ k - 1)
    (hs : s.toNat % 8 = n) : ((b &&& m) >>> s).toNat = b.toNat / 2 ^ n % 2 ^ k := by
  rw [UInt8.toNat_shiftRight, UInt8.toNat_and, hs, Nat.shiftRight_and_distrib, hm,
    Nat.and_two_pow_sub_one_eq_mod, Nat.shiftRight_eq_div_pow]

section

variable (b : Byte)

theorem high_six : ((b &&& 0xfc) >>> 2).toNat = b.toNat / 4 := by
  have hb := b.toNat_lt
  rw [masked_right (k := 6) (n := 2) rfl rfl]
  omega

theorem low_two : ((b &&& 0x03) <<< 4).toNat = b.toNat % 4 * 16 := by
  rw [masked_left (k := 2) (n := 4) rfl rfl]
  omega

theorem high_four : ((b &&& 0xf0) >>> 4).toNat = b.toNat / 16 := by
  have hb := b.toNat_lt
  rw [masked_right (k := 4) (n := 4) rfl rfl]
  omega

theorem low_four : ((b &&& 0x0f) <<< 2).toNat = b.toNat % 16 * 4 := by
  rw [masked_left (k := 4) (n := 2) rfl rfl]
  omega

theorem high_two : ((b &&& 0xc0) >>> 6).toNat = b.toNat / 64 := by
  have hb := b.toNat_lt
  rw [masked_right (k := 2) (n := 6) rfl rfl]
  omega

theorem low_six : (b &&& 0x3f).toNat = b.toNat % 64 := by
  rw [UInt8.toNat_and]
  exact Nat.and_two_pow_sub_one_eq_mod b.toNat 6

theorem shifted_two : (b <<< 2).toNat = b.toNat * 4 % 256 := by
  rw [UInt8.toNat_shiftLeft]
  exact congrArg (· % 256) (Nat.shiftLeft_eq b.toNat 2)

theorem middle_two : ((b &&& 0x30) >>> 4).toNat = b.toNat / 16 % 4 :=
  masked_right (k := 2) (n := 4) rfl rfl

theorem shifted_four : ((b &&& 0xf) <<< 4).toNat = b.toNat % 16 * 16 := by
  rw [masked_left (k := 4) (n := 4) rfl rfl]
  omega

theorem middle_four : ((b &&& 0x3c) >>> 2).toNat = b.toNat / 4 % 16 :=
  masked_right (k := 4) (n := 2) rfl rfl

theorem shifted_six : ((b &&& 0x3) <<< 6).toNat = b.toNat % 4 * 64 := by
  rw [masked_left (k := 2) (n := 6) rfl rfl]
  omega

end

/-- The numbers of a group. -/
theorem to_nat_char_array (b0 b1 b2 : Byte) :
    (charArray4 b0 b1 b2).map UInt8.toNat =
      [b0.toNat / 4, b0.toNat % 4 * 16 + b1.toNat / 16, b1.toNat % 16 * 4 + b2.toNat / 64,
        b2.toNat % 64] := by
  have h0 := b0.toNat_lt
  have h1 := b1.toNat_lt
  have h2 := b2.toNat_lt
  simp only [charArray4, List.map_cons, List.map_nil, UInt8.toNat_add, high_six, low_two, high_four,
    low_four, high_two, low_six]
  rw [Nat.mod_eq_of_lt (show b0.toNat % 4 * 16 + b1.toNat / 16 < 2 ^ 8 by omega),
    Nat.mod_eq_of_lt (show b1.toNat % 16 * 4 + b2.toNat / 64 < 2 ^ 8 by omega)]

/-- The bytes of a group come back, each from the two numbers that it was spread over. -/
theorem char_array_round_trip {b0 b1 b2 a0 a1 a2 a3 : Byte}
    (h : charArray4 b0 b1 b2 = [a0, a1, a2, a3]) :
    (a0 <<< 2) + ((a1 &&& 0x30) >>> 4) = b0 ∧ ((a1 &&& 0xf) <<< 4) + ((a2 &&& 0x3c) >>> 2) = b1 ∧
      ((a2 &&& 0x3) <<< 6) + a3 = b2 := by
  have hnat := to_nat_char_array b0 b1 b2
  rw [h] at hnat
  simp only [List.map_cons, List.map_nil, List.cons.injEq, and_true] at hnat
  obtain ⟨h0, h1, h2, h3⟩ := hnat
  have hb0 := b0.toNat_lt
  have hb1 := b1.toNat_lt
  have hb2 := b2.toNat_lt
  refine ⟨UInt8.toNat_inj.mp ?_, UInt8.toNat_inj.mp ?_, UInt8.toNat_inj.mp ?_⟩
  · rw [UInt8.toNat_add, shifted_two, middle_two, h0, h1]
    omega
  · rw [UInt8.toNat_add, shifted_four, middle_four, h1, h2]
    omega
  · rw [UInt8.toNat_add, shifted_six, h2, h3]
    omega

/-- A number of a group stands for a character, from which the decoder finds it. -/
theorem char_at_group {b0 b1 b2 a : Byte} (h : a ∈ charArray4 b0 b1 b2) :
    isBase64 (charAt a) = true ∧ charAt a ≠ ch '=' ∧ find (charAt a) = a := by
  have hsmall : ∀ a : Byte, a.toNat < 64 →
      isBase64 (charAt a) = true ∧ charAt a ≠ ch '=' ∧ find (charAt a) = a :=
    forall_byte (by decide +kernel)
  have hmem : a.toNat ∈ (charArray4 b0 b1 b2).map UInt8.toNat := List.mem_map_of_mem h
  rw [to_nat_char_array] at hmem
  have hb0 := b0.toNat_lt
  have hb1 := b1.toNat_lt
  have hb2 := b2.toNat_lt
  apply hsmall
  simp only [List.mem_cons, List.not_mem_nil, or_false] at hmem
  omega

/-- The characters of a group. -/
theorem group_chars (b0 b1 b2 : Byte) :
    ∃ a0 a1 a2 a3, charArray4 b0 b1 b2 = [a0, a1, a2, a3] ∧
      ∀ a ∈ [a0, a1, a2, a3], isBase64 (charAt a) = true ∧ charAt a ≠ ch '=' ∧
        find (charAt a) = a :=
  ⟨_, _, _, _, rfl, fun _ ha => char_at_group ha⟩

/-! ## Group by group -/

/-- The text of some bytes. -/
def encoded : Text → Text
  | [] => []
  | [b0] => encodeRest [b0] []
  | [b0, b1] => encodeRest [b0, b1] []
  | b0 :: b1 :: b2 :: bytes => (charArray4 b0 b1 b2).map charAt ++ encoded bytes

theorem encode_loop_eq (bytes ret : Text) :
    encodeRest (encodeLoop bytes [] ret).1 (encodeLoop bytes [] ret).2 = ret ++ encoded bytes := by
  induction bytes using encoded.induct generalizing ret with
  | case1 => simp [encodeLoop, encodeRest, encoded]
  | case2 b0 => simp [encodeLoop, encodeRest, encoded]
  | case3 b0 b1 => simp [encodeLoop, encodeRest, encoded]
  | case4 b0 b1 b2 bytes ih =>
      have hloop : encodeLoop (b0 :: b1 :: b2 :: bytes) [] ret =
          encodeLoop bytes [] (ret ++ (charArray4 b0 b1 b2).map charAt) := rfl
      rw [hloop, ih, encoded, List.append_assoc]

/-- The encoder takes as many bytes as the size as an `unsigned int` says. -/
theorem encode_eq (bytes : Text) (n : UInt32) :
    base64Encode bytes n = encoded (bytes.take n.toNat) :=
  encode_loop_eq (bytes.take n.toNat) []

/-- Four characters for three bytes. -/
theorem length_encoded (bytes : Text) : (encoded bytes).length = 4 * ((bytes.length + 2) / 3) := by
  induction bytes using encoded.induct with
  | case1 => rfl
  | case2 b0 => simp [encoded, encodeRest, charArray4]
  | case3 b0 b1 => simp [encoded, encodeRest, charArray4]
  | case4 b0 b1 b2 bytes ih =>
      rw [encoded, List.length_append, ih]
      simp only [charArray4, List.map_cons, List.map_nil, List.length_cons, List.length_nil]
      omega

theorem group_members {b0 b1 b2 c : Byte} {n : Nat}
    (h : c ∈ ((charArray4 b0 b1 b2).take n).map charAt) : isBase64 c = true ∧ c ≠ ch '=' := by
  obtain ⟨a, ha, rfl⟩ := List.mem_map.mp h
  have hchar := char_at_group (List.mem_of_mem_take ha)
  exact ⟨hchar.1, hchar.2.1⟩

/-- All characters of a text but the last two belong to base64. -/
theorem encoded_chars (bytes : Text) :
    ∃ cs p, encoded bytes = cs ++ List.replicate p (ch '=') ∧ p ≤ 2 ∧
      ∀ c ∈ cs, isBase64 c = true ∧ c ≠ ch '=' := by
  induction bytes using encoded.induct with
  | case1 => exact ⟨[], 0, rfl, by omega, List.forall_mem_nil _⟩
  | case2 b0 =>
      refine ⟨((charArray4 b0 0 0).take 2).map charAt, 2, ?_, by omega, fun c => group_members⟩
      simp [encoded, encodeRest]
  | case3 b0 b1 =>
      refine ⟨((charArray4 b0 b1 0).take 3).map charAt, 1, ?_, by omega, fun c => group_members⟩
      simp [encoded, encodeRest]
  | case4 b0 b1 b2 bytes ih =>
      obtain ⟨cs, p, hcs, hp, hall⟩ := ih
      refine ⟨(charArray4 b0 b1 b2).map charAt ++ cs, p, ?_, hp, ?_⟩
      · rw [encoded, hcs, List.append_assoc]
      · intro c hc
        cases List.mem_append.mp hc with
        | inl hgroup => exact group_members (n := 4) hgroup
        | inr hrest => exact hall c hrest

/-! ## The decoder on a text -/

section

variable {c : Byte} {rest group ret : Text} {n : Int} {pos : Nat}

theorem goes_on_cons (hc : isBase64 c = true ∧ c ≠ ch '=') (hn : n ≠ 0) :
    goesOn n (c :: rest) = true := by
  simp [goesOn, hc.1, hc.2, hn]

/-- A character is added to a group that it does not fill. -/
theorem decode_loop_collect (hc : isBase64 c = true ∧ c ≠ ch '=')
    (hn : n ≠ 0 ∧ n ≠ -(2 ^ 31)) (hpos : pos < 2 ^ 31 - 1) (hgroup : group.length < 3) :
    decodeLoop (c :: rest) n pos group ret =
      decodeLoop rest (n - 1) (pos + 1) (group ++ [c]) ret := by
  rw [decodeLoop, if_neg (by omega), if_pos (goes_on_cons hc (by omega)), if_neg (by omega)]
  intro a0 a1 a2 hfull
  rw [hfull] at hgroup
  exact absurd hgroup (by simp)

/-- A character fills a group. -/
theorem decode_loop_emit {a0 a1 a2 : Byte} (hc : isBase64 c = true ∧ c ≠ ch '=') (hn : 0 < n)
    (hpos : pos < 2 ^ 31 - 1) :
    decodeLoop (c :: rest) n pos [a0, a1, a2] ret =
      decodeLoop rest (n - 1) (pos + 1) []
        (ret ++ charArray3 (find a0) (find a1) (find a2) (find c)) := by
  rw [decodeLoop, if_neg (by omega), if_pos (goes_on_cons hc (by omega)), if_neg (by omega)]

/-- At a foreign character the loop ends. -/
theorem decode_loop_stop (hn : n ≠ -(2 ^ 31)) (hstop : goesOn n rest = false) :
    decodeLoop rest n pos group ret = some (group, ret) := by
  cases rest with
  | nil => rw [decodeLoop, if_neg hn]
  | cons c rest =>
      unfold decodeLoop
      rw [if_neg hn, if_neg (by simp [hstop])]

end

theorem goes_on_equals (n : Int) (rest : Text) : goesOn n (ch '=' :: rest) = false := by
  simp [goesOn]

/-- What the decoder makes of the group and the bytes behind its loop. -/
def finish (p : Text × Text) : Text := decodeRest p.1 p.2

/-- The decoder reads back the text of some bytes. -/
theorem decode_encoded (bytes ret : Text) {n : Int} {pos : Nat}
    (hn : n = (encoded bytes).length) (hpos : pos + (encoded bytes).length < 2 ^ 31) :
    (decodeLoop (encoded bytes) n pos [] ret).map finish = some (ret ++ bytes) := by
  induction bytes using encoded.induct generalizing ret n pos with
  | case1 =>
      rw [decode_loop_stop (by rw [hn]; decide) (by rw [hn]; rfl)]
      simp [finish, decodeRest]
  | case2 b0 =>
      obtain ⟨a0, a1, a2, a3, hgroup, hchars⟩ := group_chars b0 0 0
      have h0 := hchars a0 (by simp)
      have h1 := hchars a1 (by simp)
      have htext : encoded [b0] = [charAt a0, charAt a1, ch '=', ch '='] := by
        simp [encoded, encodeRest, hgroup]
      rw [htext] at hn hpos ⊢
      simp only [List.length_cons, List.length_nil] at hn hpos
      rw [decode_loop_collect ⟨h0.1, h0.2.1⟩ (by omega) (by omega) (by simp),
        decode_loop_collect ⟨h1.1, h1.2.1⟩ (by omega) (by omega) (by simp),
        decode_loop_stop (by omega) (goes_on_equals _ _)]
      simp [finish, decodeRest, charArray3, h0.2.2, h1.2.2, (char_array_round_trip hgroup).1]
  | case3 b0 b1 =>
      obtain ⟨a0, a1, a2, a3, hgroup, hchars⟩ := group_chars b0 b1 0
      have h0 := hchars a0 (by simp)
      have h1 := hchars a1 (by simp)
      have h2 := hchars a2 (by simp)
      have htext : encoded [b0, b1] = [charAt a0, charAt a1, charAt a2, ch '='] := by
        simp [encoded, encodeRest, hgroup]
      rw [htext] at hn hpos ⊢
      simp only [List.length_cons, List.length_nil] at hn hpos
      rw [decode_loop_collect ⟨h0.1, h0.2.1⟩ (by omega) (by omega) (by simp),
        decode_loop_collect ⟨h1.1, h1.2.1⟩ (by omega) (by omega) (by simp),
        decode_loop_collect ⟨h2.1, h2.2.1⟩ (by omega) (by omega) (by simp),
        decode_loop_stop (by omega) (goes_on_equals _ _)]
      have hbytes := char_array_round_trip hgroup
      simp [finish, decodeRest, charArray3, h0.2.2, h1.2.2, h2.2.2, hbytes.1, hbytes.2.1]
  | case4 b0 b1 b2 bytes ih =>
      obtain ⟨a0, a1, a2, a3, hgroup, hchars⟩ := group_chars b0 b1 b2
      have h0 := hchars a0 (by simp)
      have h1 := hchars a1 (by simp)
      have h2 := hchars a2 (by simp)
      have h3 := hchars a3 (by simp)
      have htext : encoded (b0 :: b1 :: b2 :: bytes) =
          charAt a0 :: charAt a1 :: charAt a2 :: charAt a3 :: encoded bytes := by
        simp [encoded, hgroup]
      rw [htext] at hn hpos ⊢
      simp only [List.length_cons] at hn hpos
      have hbytes := char_array_round_trip hgroup
      rw [decode_loop_collect ⟨h0.1, h0.2.1⟩ (by omega) (by omega) (by simp),
        decode_loop_collect ⟨h1.1, h1.2.1⟩ (by omega) (by omega) (by simp),
        decode_loop_collect ⟨h2.1, h2.2.1⟩ (by omega) (by omega) (by simp)]
      show (decodeLoop (charAt a3 :: encoded bytes) _ _ [charAt a0, charAt a1, charAt a2] ret).map
        finish = _
      rw [decode_loop_emit ⟨h3.1, h3.2.1⟩ (by omega) (by omega), h0.2.2, h1.2.2, h2.2.2, h3.2.2,
        ih _ (by omega) (by omega), charArray3, hbytes.1, hbytes.2.1, hbytes.2.2]
      simp

theorem base64_decode_eq (text : Text) :
    base64Decode text = (decodeLoop text (inLen text) 0 [] []).map finish := by
  unfold base64Decode
  cases decodeLoop text (inLen text) 0 [] [] <;> rfl

/-! ## Texts that are too long -/

section

variable {rest group ret g r : Text} {n : Int} {pos : Nat}

/-- One turn of the loop: a character is collected or fills a group. -/
theorem decode_loop_turn {c : Byte} {p : Text × Text}
    (h : decodeLoop (c :: rest) n pos group ret = some p) :
    p = (group, ret) ∧ goesOn n (c :: rest) = false ∨
      ∃ group' ret', decodeLoop rest (n - 1) (pos + 1) group' ret' = some p ∧ n ≠ 0 ∧
      (group.length ≠ 3 ∧ group'.length = group.length + 1 ∧ ret'.length = ret.length ∨
        group.length = 3 ∧ group'.length = 0 ∧ ret'.length = ret.length + 3) := by
  unfold decodeLoop at h
  split at h
  · cases h
  · split at h
    · rename_i hgo
      have hn : n ≠ 0 := by
        rintro rfl
        cases hgo
      split at h
      · cases h
      · split at h
        · exact .inr ⟨_, _, h, hn, .inr ⟨rfl, rfl, by simp [charArray3]⟩⟩
        · rename_i hshort
          refine .inr ⟨_, _, h, hn, .inl ⟨?_, by simp, rfl⟩⟩
          intro hfull
          obtain ⟨a0, a1, a2, habc⟩ := List.length_eq_three.mp hfull
          exact hshort a0 a1 a2 habc
    · rename_i hstop
      cases h
      exact .inl ⟨rfl, by simpa using hstop⟩

/-- Three bytes at most come out of four characters, and no character is lost but in a group that
is not full. -/
theorem decode_loop_length (hgroup : group.length ≤ 3)
    (h : decodeLoop rest n pos group ret = some (g, r)) :
    g.length ≤ 3 ∧ group.length + ret.length ≤ g.length + r.length ∧
      4 * r.length + 3 * g.length ≤ 4 * ret.length + 3 * group.length + 3 * rest.length ∧
      (0 ≤ n → 4 * r.length + 3 * g.length ≤ 4 * ret.length + 3 * group.length + 3 * n) := by
  induction rest generalizing n pos group ret with
  | nil =>
      unfold decodeLoop at h
      split at h
      · cases h
      · cases h
        refine ⟨hgroup, Nat.le_refl _, by omega, by omega⟩
  | cons c rest ih =>
      rw [List.length_cons]
      cases decode_loop_turn h with
      | inl hend =>
          cases hend.1
          refine ⟨hgroup, Nat.le_refl _, by omega, by omega⟩
      | inr hturn =>
          obtain ⟨group', ret', hrest, hn, hcases⟩ := hturn
          obtain ⟨hg, hsum, hlen, hcount⟩ := ih (by omega) hrest
          exact ⟨hg, by omega, by omega, by omega⟩

/-- Where the counter is negative and there are characters enough, it overflows. -/
theorem decode_loop_overflow {k : Nat} (hn : n + 2 ^ 31 = k) (hk : k < 2 ^ 31)
    (hlen : k ≤ rest.length) (hchars : ∀ c ∈ rest.take k, isBase64 c = true ∧ c ≠ ch '=') :
    decodeLoop rest n pos group ret = none := by
  induction k generalizing rest n pos group ret with
  | zero =>
      have hleast : n = -(2 ^ 31) := by omega
      cases rest with
      | nil => rw [decodeLoop, if_pos hleast]
      | cons c rest =>
          unfold decodeLoop
          rw [if_pos hleast]
  | succ k ih =>
      cases rest with
      | nil => exact absurd hlen (by simp)
      | cons c rest =>
          rw [List.take_succ_cons] at hchars
          have hrest : ∀ group ret, decodeLoop rest (n - 1) (pos + 1) group ret = none := by
            intro group ret
            refine ih (by omega) (by omega) (Nat.le_of_succ_le_succ hlen) ?_
            exact fun c' hc' => hchars c' (List.mem_cons_of_mem c hc')
          cases hloop : decodeLoop (c :: rest) n pos group ret with
          | none => rfl
          | some p =>
              cases decode_loop_turn hloop with
              | inl hend =>
                  have hgo : goesOn n (c :: rest) = true :=
                    goes_on_cons (hchars c List.mem_cons_self) (show n ≠ 0 by omega)
                  cases hgo.symm.trans hend.2
              | inr hturn =>
                  obtain ⟨group', ret', hsome, -⟩ := hturn
                  rw [hrest] at hsome
                  cases hsome

end

/-- The text of so many bytes is shorter than an `int` can count. -/
def Fits (bytes : Text) : Prop := 4 * ((bytes.length + 2) / 3) < 2 ^ 31

theorem finish_length {g r : Text} (hg : g.length ≤ 3) :
    4 * (finish (g, r)).length ≤ 4 * r.length + 3 * g.length := by
  simp only [finish, decodeRest, List.length_append, List.length_take]
  omega

/-- The size of a text as an `int`. -/
theorem in_len_eq (text : Text) : inLen text = (text.length : Int).bmod (2 ^ 32) :=
  Int32.toInt_ofNat'

theorem in_len_short {text : Text} (h : text.length < 2 ^ 31) : inLen text = text.length := by
  rw [in_len_eq, Int.bmod_def]
  omega

/-- What comes out of a text is no longer than three quarters of it, nor than three quarters of the
count. -/
theorem base64_decode_length {text bytes : Text} (h : base64Decode text = some bytes) :
    4 * bytes.length ≤ 3 * text.length ∧ (0 ≤ inLen text → 4 * bytes.length ≤ 3 * inLen text) := by
  rw [base64_decode_eq] at h
  obtain ⟨⟨g, r⟩, hp, rfl⟩ := Option.map_eq_some_iff.mp h
  obtain ⟨hg, -, hlen, hcount⟩ := decode_loop_length (by simp) hp
  have hfinish := finish_length (r := r) hg
  simp only [List.length_nil] at hlen hcount
  refine ⟨by omega, fun hn => ?_⟩
  have hn' := hcount hn
  omega

/-- A text of 2^31 characters or more that are no more than 2^32 overflows the counter. -/
theorem decode_encoded_overflow {bytes : Text} (hlow : 2 ^ 31 ≤ (encoded bytes).length)
    (hhigh : (encoded bytes).length < 2 ^ 32) : base64Decode (encoded bytes) = none := by
  have hn : inLen (encoded bytes) + 2 ^ 31 = ((encoded bytes).length - 2 ^ 31 : Nat) := by
    rw [in_len_eq, Int.bmod_def]
    omega
  obtain ⟨cs, p, htext, hp, hchars⟩ := encoded_chars bytes
  have hlength : (encoded bytes).length = cs.length + p := by
    rw [htext, List.length_append, List.length_replicate]
  have hfront : ∀ c ∈ (encoded bytes).take ((encoded bytes).length - 2 ^ 31),
      isBase64 c = true ∧ c ≠ ch '=' := by
    intro c hc
    have hle : (encoded bytes).length - 2 ^ 31 ≤ cs.length := by omega
    generalize (encoded bytes).length - 2 ^ 31 = k at hc hle
    rw [htext, List.take_append_of_le_length hle] at hc
    exact hchars c (List.mem_of_mem_take hc)
  rw [base64_decode_eq, decode_loop_overflow hn (by omega) (by omega) hfront]
  rfl

/-- Bytes come back from their text if and only if it is not too long. -/
theorem decode_encode_iff (bytes : Text) :
    base64Decode (base64Encode bytes (UInt32.ofNat bytes.length)) = some bytes ↔ Fits bytes := by
  have hsize : (UInt32.ofNat bytes.length).toNat = bytes.length % 2 ^ 32 := UInt32.toNat_ofNat'
  rw [encode_eq, hsize]
  constructor
  · intro h
    unfold Fits
    by_contra hlong
    have hlength := length_encoded (bytes.take (bytes.length % 2 ^ 32))
    rw [List.length_take] at hlength
    obtain ⟨hout, hcount⟩ := base64_decode_length h
    by_cases hbytes : bytes.length < 2 ^ 32
    · by_cases htext : (encoded (bytes.take (bytes.length % 2 ^ 32))).length < 2 ^ 32
      · rw [decode_encoded_overflow (by omega) htext] at h
        cases h
      · -- the size wraps around, so that the decoder stops early
        have hn : inLen (encoded (bytes.take (bytes.length % 2 ^ 32))) =
            (encoded (bytes.take (bytes.length % 2 ^ 32))).length - 2 ^ 32 := by
          rw [in_len_eq, Int.bmod_def]
          omega
        have hout := hcount (by omega)
        omega
    · omega
  · intro hfits
    unfold Fits at hfits
    rw [Nat.mod_eq_of_lt (by omega), List.take_length, base64_decode_eq]
    have hlength := length_encoded bytes
    refine decode_encoded bytes [] (in_len_short (by omega)) (by omega)

/-! ## Texts that are decoded -/

/-- Where the counters cannot overflow the loop returns. -/
theorem decode_loop_returns {rest group ret : Text} {n : Int} {pos : Nat} (hn : 0 ≤ n)
    (hpos : pos + n < 2 ^ 31) : ∃ p, decodeLoop rest n pos group ret = some p := by
  induction rest generalizing n pos group ret with
  | nil =>
      have hstop : goesOn n [] = false := by simp [goesOn]
      exact ⟨_, decode_loop_stop (by omega) hstop⟩
  | cons c rest ih =>
      cases hgo : goesOn n (c :: rest) with
      | false => exact ⟨_, decode_loop_stop (by omega) hgo⟩
      | true =>
          have hzero : n ≠ 0 := by
            rintro rfl
            cases hgo
          unfold decodeLoop
          rw [if_neg (by omega), if_pos hgo, if_neg (by omega)]
          split <;> exact ih (by omega) (by omega)

/-- The size of the text of so many bytes is none that an `int` takes to be negative. -/
def TextCounted (bytes : Text) : Prop :=
  4 * ((bytes.length % 2 ^ 32 + 2) / 3) < 2 ^ 31 ∨ 2 ^ 32 ≤ 4 * ((bytes.length % 2 ^ 32 + 2) / 3)

/-- The decoder returns from the text of some bytes if and only if it does not take its size to be
negative. -/
theorem decode_encode_returns_iff (bytes : Text) :
    (base64Decode (base64Encode bytes (UInt32.ofNat bytes.length))).isSome = true ↔
      TextCounted bytes := by
  have hsize : (UInt32.ofNat bytes.length).toNat = bytes.length % 2 ^ 32 := UInt32.toNat_ofNat'
  have hmod : bytes.length % 2 ^ 32 < 2 ^ 32 := Nat.mod_lt _ (by decide)
  have hlength := length_encoded (bytes.take (bytes.length % 2 ^ 32))
  rw [List.length_take, Nat.min_eq_left (Nat.mod_le _ _)] at hlength
  rw [encode_eq, hsize, TextCounted, ← hlength]
  generalize bytes.take (bytes.length % 2 ^ 32) = front at hlength
  constructor
  · intro h
    by_contra hneither
    rw [decode_encoded_overflow (by omega) (by omega)] at h
    cases h
  · intro h
    have hcount : 0 ≤ inLen (encoded front) ∧ inLen (encoded front) < 2 ^ 31 := by
      rw [in_len_eq, Int.bmod_def]
      omega
    obtain ⟨p, hp⟩ : ∃ p, decodeLoop (encoded front) (inLen (encoded front)) 0 [] [] = some p :=
      decode_loop_returns hcount.1 (by omega)
    rw [base64_decode_eq, hp]
    rfl

/-! ## Texts of which nothing comes out -/

/-- The decoder takes fewer than two characters of the text. -/
def Blank (text : Text) : Prop :=
  inLen text ≠ -(2 ^ 31) ∧
    (goesOn (inLen text) text = true →
      inLen text - 1 ≠ -(2 ^ 31) ∧ goesOn (inLen text - 1) text.tail = false)

theorem decode_loop_least {rest group ret : Text} {pos : Nat} :
    decodeLoop rest (-(2 ^ 31)) pos group ret = none := by
  cases rest with
  | nil => rw [decodeLoop, if_pos rfl]
  | cons c rest =>
      unfold decodeLoop
      rw [if_pos rfl]

/-- The loop goes on at a character of base64. -/
theorem goes_on_inv {n : Int} {rest : Text} (h : goesOn n rest = true) :
    n ≠ 0 ∧ ∃ c rest', rest = c :: rest' ∧ isBase64 c = true ∧ c ≠ ch '=' := by
  cases rest with
  | nil => simp [goesOn] at h
  | cons c rest =>
      simp only [goesOn, List.head?_cons, Option.any_some, Bool.and_eq_true, bne_iff_ne] at h
      exact ⟨h.1, c, rest, rfl, h.2.2, h.2.1⟩

theorem decode_nothing_iff (text : Text) : base64Decode text = some [] ↔ Blank text := by
  rw [base64_decode_eq, Blank]
  constructor
  · intro h
    obtain ⟨⟨g, r⟩, hp, hfinish⟩ := Option.map_eq_some_iff.mp h
    have hfew : g.length + r.length ≤ 1 := by
      have hlength := congrArg List.length hfinish
      simp only [finish, decodeRest, charArray3, List.length_append, List.length_take,
        List.length_cons, List.length_nil] at hlength
      omega
    refine ⟨fun hleast => ?_, fun hgo => ?_⟩
    · rw [hleast, decode_loop_least] at hp
      cases hp
    · obtain ⟨hn, c, rest, rfl, hc⟩ := goes_on_inv hgo
      cases decode_loop_turn hp with
      | inl hend => cases hgo.symm.trans hend.2
      | inr hturn =>
          obtain ⟨group, ret, hrest, -, hcases⟩ := hturn
          simp only [List.length_nil] at hcases
          refine ⟨fun hleast => ?_, ?_⟩
          · rw [hleast, decode_loop_least] at hrest
            cases hrest
          · rw [List.tail_cons]
            cases hnext : goesOn (inLen (c :: rest) - 1) rest with
            | false => rfl
            | true =>
                obtain ⟨-, c', rest', rfl, -⟩ := goes_on_inv hnext
                cases decode_loop_turn hrest with
                | inl hend => cases hnext.symm.trans hend.2
                | inr hturn =>
                    obtain ⟨group', ret', hrest', -, hcases'⟩ := hturn
                    have hsum := (decode_loop_length (by omega) hrest').2.1
                    omega
  · intro h
    obtain ⟨hleast, hnext⟩ := h
    cases hgo : goesOn (inLen text) text with
    | false =>
        rw [decode_loop_stop hleast hgo]
        rfl
    | true =>
        obtain ⟨hleast', hstop⟩ := hnext hgo
        obtain ⟨hn, c, rest, rfl, hc⟩ := goes_on_inv hgo
        rw [List.tail_cons] at hstop
        rw [decode_loop_collect hc ⟨hn, hleast⟩ (by omega) (by simp),
          decode_loop_stop hleast' hstop]
        rfl

end BoostRpc.Base64
