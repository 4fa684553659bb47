import BoostRpc.Json.Relaying
import BoostRpc.Json.Overwriting
import BoostRpc.Raw.RoundTrip

/-!
# Typed values as JSON texts

`to_json` and `to_string` pack a value of some C++ type and write the text of what was packed;
`from_json` reads a text and unpacks the value that it means. `text_round_trip_iff` says what comes
through the text: strings that survive it, and numbers that do not change any more.
-/

namespace BoostRpc.Json

open Ordered Raw Rounding Base64

variable {α β γ : Type}

/-! ## The functions -/

/-- `to_json` with a stream, which holds some text. -/
def Packable.toJson (t : Packable α) (os : Text) (v : α) : Except Failure Text := do
  let jsv ← t.pack .null v
  match write jsv false with
  | some text => return os ++ text
  | none => throw .endless

/-- `to_string` -/
def Packable.toString (t : Packable α) (v : α) (pretty : Bool) : Except Failure Text := do
  let jsv ← t.pack .null v
  match write jsv pretty with
  | some text => return text
  | none => throw .endless

/-- `from_json` into a target that holds a value. -/
def Packable.fromJson [Platform] (memory : Memory) (t : Packable α) (j : Text) (val : α) :
    Except Failure α := do
  let v ← raised (read j)
  t.unpack memory v val

/-- `raw::pack` of a `json::value`, which writes its text as a string. -/
def packValue {σ : Type} [OutStream σ] (s : σ) (v : Value) : Option σ := do
  let text ← write v false
  return packChars s text

/-- `raw::unpack` of a `json::value`, or what `read` throws with the stream behind the string. -/
def unpackValue [Machine] [Platform] : Reader (Except Exception Value) := do
  let str ← unpackChars []
  return read str

/-! ## Values that do not change -/

/-- Nothing happens to the value in a text. -/
structure Steady (v : Value) : Prop where
  portable : Portable v
  same : reread v = v
  counted : counted v = true

/-- The number is the `double` nearest to its six decimals. -/
structure Double.Steady (x : Double) : Prop where
  valid : x.Valid
  same : x.throughText = x

theorem Double.Steady.value {x : Double} (h : x.Steady) : Json.Steady (.number x) :=
  ⟨h.valid, congrArg Value.number h.same, rfl⟩

/-- The `double` nearest to an integer is an integer. -/
theorem steady_integer {n : Int} (hn : |n| ≤ 2 ^ 64) : (Double.ofInteger n).Steady := by
  have hpower : Format.binary64.Represents (2 ^ 64) := ⟨1, 64, by decide, by decide, by norm_num⟩
  have hpower' : Format.binary64.Represents (-2 ^ 64) :=
    ⟨-1, 64, by decide, by decide, by norm_num⟩
  obtain ⟨hlow, hhigh⟩ := abs_le.mp hn
  have hbound : |Format.binary64.nearest n| ≤ 2 ^ 64 :=
    abs_le.mpr ⟨Format.binary64.le_nearest hpower' (by exact_mod_cast hlow),
      Format.binary64.nearest_le hpower (by exact_mod_cast hhigh)⟩
  have hsmall : |Format.binary64.nearest n| ≤ largest := by
    have hpow : (2 : ℚ) ^ 64 ≤ 2 ^ 971 := pow_le_pow_right₀ one_le_two (by decide)
    exact hbound.trans (hpow.trans (le_mul_of_one_le_left (by positivity) (by norm_num)))
  have hrepresents := Format.binary64.represents_nearest n
  obtain ⟨r, hr⟩ := nearest_integer n
  have hmicros : Format.binary64.nearest n = ((r * 10 ^ 6 : Int) : ℚ) / 10 ^ 6 := by
    rw [hr]
    push_cast
    ring
  have hsame := through_text_micros hrepresents hmicros
  refine ⟨fun q hq => ?_, congrArg Double.finite hsame⟩
  exact Double.finite.inj hq ▸ ⟨hrepresents, hsmall⟩

theorem steady_string {text : Text} (h : survives text = true) : Steady (.string text) :=
  ⟨h, rfl, rfl⟩

/-- An array of steady values. -/
theorem steady_array {vals : List Value} (hsize : vals.length < 2 ^ 32)
    (h : ∀ val ∈ vals, Steady val) : Steady (.array vals) := by
  have hall : PortableVals vals ∧ rereadVals vals = vals ∧ countedVals vals = true := by
    clear hsize
    induction vals with
    | nil => exact ⟨trivial, rfl, rfl⟩
    | cons val vals ih =>
        have hval := h val List.mem_cons_self
        obtain ⟨hportable, hsame, hcount⟩ := ih fun w hw => h w (List.mem_cons_of_mem _ hw)
        refine ⟨⟨hval.portable, hportable⟩, ?_, ?_⟩
        · rw [rereadVals, hval.same, hsame]
        · rw [countedVals, hval.counted, hcount]
          rfl
  obtain ⟨hportable, hsame, hcount⟩ := hall
  refine ⟨hportable, congrArg Value.array hsame, ?_⟩
  rw [Json.counted, hcount, decide_eq_true hsize]
  rfl

/-- An object of steady values, whose keys survive. -/
theorem steady_object {keys : Object} (hsize : keys.length < 2 ^ 32)
    (h : ∀ entry ∈ keys, survives entry.1 = true ∧ Steady entry.2) : Steady (.object keys) := by
  have hall : PortableKeys keys ∧ rereadKeys keys = keys ∧ countedKeys keys = true := by
    clear hsize
    induction keys with
    | nil => exact ⟨trivial, rfl, rfl⟩
    | cons entry keys ih =>
        obtain ⟨key, val⟩ := entry
        obtain ⟨hkey, hval⟩ := h _ List.mem_cons_self
        obtain ⟨hportable, hsame, hcount⟩ := ih fun w hw => h w (List.mem_cons_of_mem _ hw)
        refine ⟨⟨⟨hkey, hval.portable⟩, hportable⟩, ?_, ?_⟩
        · rw [rereadKeys, hval.same, hsame]
        · rw [countedKeys, hval.counted, hcount]
          rfl
  obtain ⟨hportable, hsame, hcount⟩ := hall
  refine ⟨hportable, congrArg Value.object hsame, ?_⟩
  rw [Json.counted, hcount, decide_eq_true hsize]
  rfl

/-- The counters reach the sizes of an array and of its elements. -/
theorem counted_array {vals : List Value} (h : counted (.array vals) = true) :
    vals.length < 2 ^ 32 ∧ ∀ val ∈ vals, counted val = true := by
  rw [counted, Bool.and_eq_true, decide_eq_true_eq] at h
  refine ⟨h.1, ?_⟩
  have hall : ∀ vals, countedVals vals = true → ∀ val ∈ vals, counted val = true := by
    intro vals h
    induction vals with
    | nil => exact List.forall_mem_nil _
    | cons val vals ih =>
        rw [countedVals, Bool.and_eq_true] at h
        exact List.forall_mem_cons.mpr ⟨h.1, ih h.2⟩
  exact hall vals h.2

/-- The counters reach the sizes of an object and of what it holds. -/
theorem counted_object {keys : Object} (h : counted (.object keys) = true) :
    keys.length < 2 ^ 32 ∧ ∀ entry ∈ keys, counted entry.2 = true := by
  rw [counted, Bool.and_eq_true, decide_eq_true_eq] at h
  refine ⟨h.1, ?_⟩
  have hall : ∀ keys, countedKeys keys = true → ∀ entry ∈ keys, counted entry.2 = true := by
    intro keys h
    induction keys with
    | nil => exact List.forall_mem_nil _
    | cons entry keys ih =>
        rw [countedKeys, Bool.and_eq_true] at h
        exact List.forall_mem_cons.mpr ⟨h.1, ih h.2⟩
  exact hall keys h.2

/-- A base64 text survives. -/
theorem survives_encoded (bytes : Text) (n : UInt32) : survives (base64Encode bytes n) = true := by
  have hplain : ∀ c : Byte, isBase64 c = true ∨ c = ch '=' →
      (isAscii c && c != ch '"' && c != ch '\\') = true :=
    forall_byte (by decide +kernel)
  have hall : ∀ text : Text, (∀ c ∈ text, isBase64 c = true ∨ c = ch '=') →
      survives text = true := by
    intro text h
    induction text with
    | nil => rfl
    | cons c text ih =>
        have hc := hplain c (h c List.mem_cons_self)
        have hrest := ih fun d hd => h d (List.mem_cons_of_mem _ hd)
        simp only [Bool.and_eq_true, bne_iff_ne, ne_eq] at hc
        rw [survives_cons]
        exact ⟨hc.1.1, hc.1.2, fun hback => absurd hback hc.2, hrest⟩
  obtain ⟨cs, p, hcs, -, hchars⟩ := encoded_chars (bytes.take n.toNat)
  rw [encode_eq, hcs]
  refine hall _ fun c hc => ?_
  rcases List.mem_append.mp hc with hc | hc
  · exact .inl (hchars c hc).1
  · exact .inr (List.eq_of_mem_replicate hc)

/-! ## Types -/

/-- What the type makes of the value is steady. -/
def Atomic.Textual : {α : Type} → Atomic α → α → Prop
  | _, .value, v => Steady v
  | _, .bool, _ => True
  | _, .float, v => v.val.Steady
  | _, .double, v => v.Steady
  | _, .integer i _, v => |i.toInt v| ≤ 2 ^ 64
  | _, .signedInt, _ => True
  | _, .unsignedInt, _ => True
  | _, .string, v => survives v = true
  | _, .chars, _ => True

mutual
/-- The strings in the value, its keys and the names of its members survive, and its numbers are
steady. -/
def Packable.Textual : {α : Type} → Packable α → α → Prop
  | _, .atomic p, v => p.Textual v
  | _, .optional t, v => ∀ x ∈ v, t.Textual x
  | _, .required t, v => ∀ x ∈ v, t.Textual x
  | _, .vector t, v => ∀ x ∈ v, t.Textual x
  | _, .list t, v => ∀ x ∈ v, t.Textual x
  | _, .set _ t, v => ∀ x ∈ v.items, t.Textual x
  | _, .stringMap t, v => ∀ x ∈ v.items, survives x.1 = true ∧ t.Textual x.2
  | _, .map _ k t, v => ∀ x ∈ v.items, k.Textual x.1 ∧ t.Textual x.2
  | _, .pair t u, v => t.Textual v.1 ∧ u.Textual v.2
  | _, .sequence ts, v => ts.count < 2 ^ 32 ∧ ts.Textual v
  | _, @Packable.struct _ _ names ts members, v => names.length < 2 ^ 32 ∧ ts.Textual (members v)

def Parts.Textual : {α : Type} → Parts α → α → Prop
  | _, .nil, _ => True
  | _, .cons t ts, v => t.Textual v.1 ∧ ts.Textual v.2

def Fields.Textual : {names : List Text} → {α : Type} → Fields names α → α → Prop
  | _, _, .nil, _ => True
  | _, _, .cons name _ t ts, v => (survives name = true ∧ t.Textual v.1) ∧ ts.Textual v.2

/-- The number of elements of a sequence. -/
def Parts.count : {α : Type} → Parts α → Nat
  | _, .nil => 0
  | _, .cons _ ts => ts.count + 1
end

theorem Atomic.steady_pack (p : Atomic α) {v : α} (htext : p.Textual v) :
    Steady (p.pack .null v) := by
  cases p with
  | value => exact htext
  | bool => exact ⟨trivial, rfl, rfl⟩
  | float => exact Double.Steady.value htext
  | double => exact Double.Steady.value htext
  | integer i exact => exact (steady_integer htext).value
  | signedInt =>
      exact (steady_integer ((narrow_int32.small v).trans (by decide))).value
  | unsignedInt =>
      exact (steady_integer ((narrow_uint32.small v).trans (by decide))).value
  | string => exact steady_string htext
  | chars =>
      rw [Atomic.pack, packBlob]
      split
      · exact steady_string (survives_encoded v _)
      · exact ⟨trivial, rfl, rfl⟩

/-- What holds of the results of the elements. -/
theorem forall_results {R : α → β → Prop} {P : β → Prop} {xs : List α} {ys : List β}
    (hxy : List.Forall₂ R xs ys) (h : ∀ x ∈ xs, ∀ y ∈ ys, R x y → P y) : ∀ y ∈ ys, P y := by
  induction hxy with
  | nil => exact List.forall_mem_nil _
  | cons hx _ ih =>
      have hfirst := h _ List.mem_cons_self _ List.mem_cons_self hx
      have hrest := ih fun x hx y hy =>
        h x (List.mem_cons_of_mem _ hx) y (List.mem_cons_of_mem _ hy)
      exact List.forall_mem_cons.mpr ⟨hfirst, hrest⟩

/-- An array that a container is packed into. -/
theorem steady_packed {item : Value → α → Except Failure Value} {xs : List α} {jsv : Value}
    (hpack : packArray item xs = .ok jsv) (hsize : xs.length < 2 ^ 32 ∨ counted jsv = true)
    (h : ∀ x ∈ xs, ∀ val, item .null x = .ok val → (counted jsv = true → counted val = true) →
      Steady val) : Steady jsv := by
  obtain ⟨a, rfl, hlength, hall⟩ := pack_array_inv hpack
  have hless : xs.length < 2 ^ 32 :=
    hsize.elim id fun hcount => hlength ▸ (counted_array hcount).1
  refine steady_array (hlength ▸ hless) (forall_results (hall hless) fun x hx val hval hitem => ?_)
  exact h x hx val hitem fun hcount => (counted_array hcount).2 val hval

theorem steady_pair {x y : Value} (hx : Steady x) (hy : Steady y) :
    Steady (.object [(str "first", x), (str "second", y)]) := by
  refine steady_object (show 2 < 2 ^ 32 by decide) fun entry hentry => ?_
  simp only [List.mem_cons, List.not_mem_nil, or_false] at hentry
  rcases hentry with rfl | rfl
  · exact ⟨rfl, hx⟩
  · exact ⟨rfl, hy⟩

theorem counted_pair {x y : Value}
    (h : counted (.object [(str "first", x), (str "second", y)]) = true) :
    counted x = true ∧ counted y = true := by
  have hall := (counted_object h).2
  exact ⟨hall (str "first", x) List.mem_cons_self,
    hall (str "second", y) (List.mem_cons_of_mem _ List.mem_cons_self)⟩

mutual
/-- What is packed is steady, if it can be unpacked or if it can be written. -/
theorem Packable.steady_pack {α : Type} (t : Packable α) {v : α} {jsv : Value}
    (hpack : t.pack .null v = .ok jsv) (htext : t.Textual v)
    (h : t.Back .null v ∨ counted jsv = true) : Steady jsv := by
  match t, v, hpack, htext, h with
  | .atomic p, v, hpack, htext, h =>
      obtain rfl := Except.ok.inj hpack
      exact p.steady_pack htext
  | .optional _, none, hpack, _, _ => cases hpack
  | .optional t, some x, hpack, htext, h =>
      refine t.steady_pack hpack (htext x rfl) (h.imp_left fun hback => ?_)
      obtain ⟨y, hy, hback⟩ := hback
      exact Option.some.inj hy ▸ hback
  | .required _, none, hpack, _, _ => cases hpack
  | .required t, some x, hpack, htext, h =>
      refine t.steady_pack hpack (htext x rfl) (h.imp_left fun hback => ?_)
      obtain ⟨y, hy, hback⟩ := hback
      exact Option.some.inj hy ▸ hback
  | .vector t, v, hpack, htext, h =>
      exact steady_packed hpack (h.imp_left And.left) fun x hx val hval hcount =>
        t.steady_pack hval (htext x hx) (h.imp (fun hback => hback.2 x hx) hcount)
  | .list t, v, hpack, htext, h =>
      have hcounted : counted jsv = true := h.resolve_left id
      exact steady_packed hpack (.inr hcounted) fun x hx val hval hcount =>
        t.steady_pack hval (htext x hx) (.inr (hcount hcounted))
  | .set _ t, v, hpack, htext, h =>
      have hcounted : counted jsv = true := h.resolve_left id
      exact steady_packed hpack (.inr hcounted) fun x hx val hval hcount =>
        t.steady_pack hval (htext x hx) (.inr (hcount hcounted))
  | .stringMap t, v, hpack, htext, h =>
      obtain ⟨o, hitems, hjsv⟩ := bind_ok_iff.mp hpack
      obtain rfl := Except.ok.inj hjsv
      obtain ⟨vals, hvals, hall⟩ := pack_items_inv (keys_ne v) (fun _ _ => rfl) hitems
      rw [List.nil_append] at hvals
      subst hvals
      have h := h.imp_right counted_object
      have hsize : o.length < 2 ^ 32 := h.elim (fun hback => hall.length_eq ▸ hback.1) And.left
      refine steady_object hsize (forall_results hall fun x hx entry hentry hitem => ?_)
      rw [hitem.1]
      exact ⟨(htext x hx).1, t.steady_pack hitem.2 (htext x hx).2
        (h.imp (fun hback => hback.2 x hx) fun hcount => hcount.2 entry hentry)⟩
  | .map _ k t, v, hpack, htext, h =>
      refine steady_packed hpack (h.imp_left And.left) fun x hx val hval hcount => ?_
      obtain ⟨key, mapped, rfl, hkey, hmapped⟩ := pack_pair_inv hval
      have h := h.imp (fun hback => hback.2 x hx) fun hc => counted_pair (hcount hc)
      exact steady_pair
        (k.steady_pack hkey (htext x hx).1 (h.imp And.left And.left))
        (t.steady_pack hmapped (htext x hx).2 (h.imp And.right And.right))
  | .pair t u, v, hpack, htext, h =>
      obtain ⟨x, y, rfl, hx, hy⟩ := pack_pair_inv hpack
      have h := h.imp_right counted_pair
      exact steady_pair (t.steady_pack hx htext.1 (h.imp And.left And.left))
        (u.steady_pack hy htext.2 (h.imp And.right And.right))
  | .sequence ts, v, hpack, htext, h =>
      obtain ⟨a, ha, hjsv⟩ := bind_ok_iff.mp hpack
      obtain rfl := Except.ok.inj hjsv
      obtain ⟨vals, hvals, hlength, hall⟩ :=
        ts.steady_pack ha htext.2 (h.imp_right fun hcount => (counted_array hcount).2)
      rw [List.nil_append] at hvals
      subst hvals
      exact steady_array (hlength ▸ htext.1) hall
  | .struct ts members, v, hpack, htext, h =>
      obtain ⟨obj, hobj, hjsv⟩ := bind_ok_iff.mp hpack
      obtain rfl := Except.ok.inj hjsv
      obtain ⟨entries, hentries, hlength, hall⟩ := ts.steady_pack (fun _ _ => rfl) hobj htext.2
        (h.imp_right fun hcount => (counted_object hcount).2)
      rw [List.nil_append] at hentries
      subst hentries
      exact steady_object (hlength.trans_lt htext.1) hall

theorem Parts.steady_pack {α : Type} (ts : Parts α) {v : α} {front a : List Value}
    (hpack : ts.pack front v = .ok a) (htext : ts.Textual v)
    (h : ts.Back v ∨ ∀ val ∈ a, counted val = true) :
    ∃ vals, a = front ++ vals ∧ vals.length = ts.count ∧ ∀ val ∈ vals, Steady val := by
  match ts, v, hpack with
  | .nil, v, hpack =>
      obtain rfl := Except.ok.inj hpack
      exact ⟨[], (List.append_nil _).symm, rfl, List.forall_mem_nil _⟩
  | .cons t ts, (x, xs), hpack =>
      obtain ⟨val, hval, hrest⟩ := bind_ok_iff.mp hpack
      obtain ⟨vals, rfl, hlength, hall⟩ := ts.steady_pack hrest htext.2 (h.imp_left And.right)
      have hfirst := t.steady_pack hval htext.1
        (h.imp And.left fun hcount => hcount val (by simp))
      exact ⟨val :: vals, List.append_assoc _ _ _, congrArg (· + 1) hlength,
        List.forall_mem_cons.mpr ⟨hfirst, hall⟩⟩

theorem Fields.steady_pack {names : List Text} {α : Type} (ts : Fields names α) {v : α}
    {obj obj' : Object} (hnew : ∀ name ∈ names, obj.find? name = none)
    (hpack : ts.pack obj v = .ok obj') (htext : ts.Textual v)
    (h : ts.Back v ∨ ∀ entry ∈ obj', counted entry.2 = true) :
    ∃ entries : Object, obj' = obj ++ entries ∧ entries.length ≤ names.length ∧
      ∀ entry ∈ entries, survives entry.1 = true ∧ Steady entry.2 := by
  match ts, v, hpack with
  | .nil, v, hpack =>
      obtain rfl := Except.ok.inj hpack
      exact ⟨[], (List.append_nil _).symm, Nat.le_refl 0, List.forall_mem_nil _⟩
  | .cons name fresh t ts, (x, xs), hpack =>
      obtain ⟨obj₁, hmember, hrest⟩ := bind_ok_iff.mp hpack
      cases hunset : t.unset x with
      | true =>
          rw [hunset] at hmember
          obtain rfl := Except.ok.inj hmember
          obtain ⟨entries, rfl, hlength, hall⟩ := ts.steady_pack
            (fun other h => hnew other (List.mem_cons_of_mem _ h)) hrest htext.2
            (h.imp_left And.right)
          exact ⟨entries, rfl, Nat.le_succ_of_le hlength, hall⟩
      | false =>
          rw [hunset] at hmember
          have hmember : packMember obj name (fun slot => t.pack slot x) = .ok obj₁ := hmember
          obtain ⟨val, hval, rfl⟩ := pack_member_inv hmember
          rw [hnew name List.mem_cons_self] at hval
          obtain ⟨entries, rfl, hlength, hall⟩ :=
            ts.steady_pack (new_assign hnew fresh val) hrest htext.2 (h.imp_left And.right)
          rw [Object.assign_new (hnew name List.mem_cons_self)] at h ⊢
          have hset : t.Back .null x ∨ counted val = true := by
            rcases h with hback | hcount
            · exact .inl (hback.1.resolve_left fun htrue => by rw [hunset] at htrue; cases htrue)
            · exact .inr (hcount (name, val) (by simp))
          have hfirst := t.steady_pack hval htext.1.2 hset
          exact ⟨(name, val) :: entries, List.append_assoc _ _ _, Nat.succ_le_succ hlength,
            List.forall_mem_cons.mpr ⟨⟨htext.1.1, hfirst⟩, hall⟩⟩
end

mutual
/-- A value that comes back from a slot can be packed into any slot. -/
theorem Packable.packs_of_back {α : Type} (t : Packable α) {slot : Value} {v : α}
    (h : t.Back slot v) : Packs (fun slot x => t.pack slot x) v (fun _ => True) := by
  intro slot'
  match t, v, h with
  | .atomic p, v, _ => exact ⟨p.pack slot' v, rfl, trivial⟩
  | .optional t, v, h =>
      obtain ⟨x, rfl, hx⟩ := h
      exact t.packs_of_back hx slot'
  | .required t, v, h =>
      obtain ⟨x, rfl, hx⟩ := h
      exact t.packs_of_back hx slot'
  | .vector t, v, h =>
      obtain ⟨vals, hvals, -⟩ := packs_array (fun slot x => t.pack slot x) (fun _ _ => True)
        (fun x hx => t.packs_of_back (h.2 x hx) .null) h.1
      exact ⟨.array vals, hvals, trivial⟩
  | .stringMap t, v, h =>
      obtain ⟨vals, hvals, -⟩ := packs_items (fun _ _ => True)
        (fun x hx => t.packs_of_back (h.2 x hx)) (keys_ne v)
        (fun _ _ => rfl : ∀ x ∈ v.items, Object.find? [] x.1 = none)
      refine ⟨.object vals, ?_, trivial⟩
      show Packable.pack (.stringMap t) slot' v = .ok (.object vals)
      rw [Packable.pack, hvals]
      rfl
  | .map _ k t, v, h =>
      have hpair : ∀ x ∈ v.items, ∃ val,
          packPair (fun slot y => k.pack slot y) (fun slot y => t.pack slot y) x = .ok val ∧
            True := by
        intro x hx
        obtain ⟨y, z, hyz, -⟩ := @packs_pair _ _ _ _ (fun _ _ => True) (fun _ _ => True) x
          (k.packs_of_back (h.2 x hx).1) (t.packs_of_back (h.2 x hx).2)
        exact ⟨_, hyz, trivial⟩
      obtain ⟨vals, hvals, -⟩ := packs_array (fun _ x =>
        packPair (fun slot y => k.pack slot y) (fun slot y => t.pack slot y) x) _ hpair h.1
      exact ⟨.array vals, hvals, trivial⟩
  | .pair t u, v, h =>
      obtain ⟨y, z, hyz, -⟩ := @packs_pair _ _ _ _ (fun _ _ => True) (fun _ _ => True) v
        (t.packs_of_back h.1) (u.packs_of_back h.2)
      exact ⟨_, hyz, trivial⟩
  | .sequence ts, v, h =>
      obtain ⟨a, ha⟩ := ts.packs_of_back h []
      exact ⟨.array a, bind_ok_iff.mpr ⟨a, ha, rfl⟩, trivial⟩
  | .struct ts members, v, h =>
      obtain ⟨obj, hobj⟩ := ts.packs_of_back h []
      exact ⟨.object obj, bind_ok_iff.mpr ⟨obj, hobj, rfl⟩, trivial⟩

theorem Parts.packs_of_back {α : Type} (ts : Parts α) {v : α} (h : ts.Back v)
    (front : List Value) : ∃ a, ts.pack front v = .ok a := by
  match ts, v, h with
  | .nil, _, _ => exact ⟨front, rfl⟩
  | .cons t ts, (x, xs), h =>
      obtain ⟨val, hval, -⟩ := t.packs_of_back h.1 .null
      obtain ⟨a, ha⟩ := ts.packs_of_back h.2 (front ++ [val])
      exact ⟨a, bind_ok_iff.mpr ⟨val, hval, ha⟩⟩

theorem Fields.packs_of_back {names : List Text} {α : Type} (ts : Fields names α) {v : α}
    (h : ts.Back v) (obj : Object) : ∃ obj', ts.pack obj v = .ok obj' := by
  match ts, v, h with
  | .nil, _, _ => exact ⟨obj, rfl⟩
  | .cons name _ t ts, (x, xs), h =>
      obtain ⟨obj₁, hobj₁⟩ : ∃ obj₁,
          packHelper (t.unset x) obj name (fun slot => t.pack slot x) = .ok obj₁ := by
        cases hunset : t.unset x with
        | true => exact ⟨obj, rfl⟩
        | false =>
            have hback := h.1.resolve_left fun htrue => by rw [hunset] at htrue; cases htrue
            obtain ⟨val, hval, -⟩ := t.packs_of_back hback ((obj.find? name).getD .null)
            have hitem : t.pack ((obj.find? name).getD .null) x = .ok val := hval
            have hmember : packMember obj name (fun slot => t.pack slot x) =
                .ok (obj.assign name val) := pack_member_ok hitem
            exact ⟨_, hmember⟩
      obtain ⟨obj', hobj'⟩ := ts.packs_of_back h.2 obj₁
      exact ⟨obj', bind_ok_iff.mpr ⟨obj₁, hobj₁, hobj'⟩⟩
end

/-! ## Through a text -/

variable [Platform]

theorem Steady.reprinted (hnumerals : NearestNumerals) {v : Value} (h : Steady v) :
    Reprinted v v := by
  have hreprinted := reprinted_reread hnumerals h.portable
  rwa [h.same] at hreprinted

/-- What was packed comes through its text as it comes back without one. -/
theorem packed_text_iff (hnumerals : NearestNumerals) (memory : Memory) {α : Type}
    (t : Packable α) {v : α} {jsv : Value} (hpack : t.pack .null v = .ok jsv)
    (htext : t.Textual v) (pretty : Bool) (w : α) :
    (∃ text, t.toString v pretty = .ok text ∧ t.fromJson memory text w = .ok v) ↔
      t.Back .null v ∧ t.Emptied w v := by
  have hthrough : ∀ text, write jsv pretty = some text → Steady jsv →
      t.fromJson memory text w = t.unpack memory jsv w := by
    intro text hwrite hsteady
    have hread := read_reprinted (hsteady.reprinted hnumerals) hwrite
    rw [Packable.fromJson, hread, raised_ok, ok_bind]
  have hstring : ∀ text, t.toString v pretty = .ok text ↔ write jsv pretty = some text := by
    intro text
    rw [Packable.toString, hpack, ok_bind]
    cases write jsv pretty with
    | none => exact iff_of_false (fun h => by cases h) (fun h => by cases h)
    | some text' =>
        exact ⟨fun h => congrArg some (Except.ok.inj h),
          fun h => congrArg Except.ok (Option.some.inj h)⟩
  have hover := (t.unpack_packed_iff memory hpack w v).trans (t.returns_self_iff memory .null w v)
  rw [← hover]
  constructor
  · rintro ⟨text, htext', hback⟩
    have hwrite := (hstring text).mp htext'
    have hcount := (write_returns_iff jsv pretty).mp ⟨text, hwrite⟩
    rw [← hthrough text hwrite (t.steady_pack hpack htext (.inr hcount))]
    exact hback
  · intro hback
    have hsteady := t.steady_pack hpack htext
      (.inl (hover.mp hback).1)
    obtain ⟨text, hwrite⟩ := (write_returns_iff jsv pretty).mpr hsteady.counted
    refine ⟨text, (hstring text).mpr hwrite, ?_⟩
    rw [hthrough text hwrite hsteady]
    exact hback

/-- A value comes through its text, in either form, if and only if it comes back from what it is
packed into, where its strings survive and its numbers are steady. -/
theorem text_round_trip_iff (hnumerals : NearestNumerals) (memory : Memory) {α : Type}
    (t : Packable α) {v : α} (htext : t.Textual v) (pretty : Bool) (w : α) :
    (∃ text, t.toString v pretty = .ok text ∧ t.fromJson memory text w = .ok v) ↔
      t.Back .null v ∧ t.Emptied w v := by
  cases hpack : t.pack .null v with
  | ok jsv => exact packed_text_iff hnumerals memory t hpack htext pretty w
  | error e =>
      constructor
      · rintro ⟨text, hstring, -⟩
        obtain ⟨jsv, hjsv, -⟩ := bind_ok_iff.mp hstring
        cases hpack.symm.trans hjsv
      · rintro ⟨hback, -⟩
        obtain ⟨jsv, hjsv, -⟩ := t.packs_of_back hback .null
        cases hpack.symm.trans hjsv

/-- A `json::value` comes back from a raw stream with its numbers as behind any text, and the stream
goes on right behind it. -/
theorem raw_value_round_trip [Machine] (hnumerals : NearestNumerals) {v : Value}
    (hportable : Portable v) {bytes : Text} (hpack : packValue ([] : Text) v = some bytes)
    (hsize : bytes.length < 2 ^ 32) : Reads unpackValue bytes (.ok (reread v)) := by
  obtain ⟨text, hwrite, hbytes⟩ := Option.bind_eq_some_iff.mp hpack
  have hread := read_reprinted (reprinted_reread hnumerals hportable) hwrite
  rw [pack_chars_text] at hbytes
  obtain rfl := Option.some.inj hbytes
  have hshort : text.length < 2 ^ 32 := by
    rw [List.nil_append, List.length_append] at hsize
    omega
  rw [← hread]
  exact (reads_chars hshort []).map read

omit [Platform] in
/-- A number of seven decimals through a raw stream, with something behind it. -/
theorem raw_value_round_trip_small :
    letI := Platform.nearest
    letI := Machine.x86
    ∃ bytes, packValue ([] : Text) (.array [.number (.finite (1 / 2 ^ 21)), .null]) = some bytes ∧
      Reads unpackValue bytes
        (.ok (.array [.number (.finite (throughText (1 / 2 ^ 21))), .null])) := by
  let := Platform.nearest
  let := Machine.x86
  have hfinite : FiniteDouble (1 / 2 ^ 21) :=
    ⟨⟨1, -21, by decide, by decide, by norm_num⟩, le_largest (by norm_num [abs_le])⟩
  have hportable : Portable (.array [.number (.finite (1 / 2 ^ 21)), .null]) :=
    ⟨fun q hq => Double.finite.inj hq ▸ hfinite, trivial, trivial⟩
  have hpack : packValue ([] : Text) (.array [.number (.finite (1 / 2 ^ 21)), .null]) =
      some (packChars [] (str "[0.000000,null]")) := by
    decide +kernel
  exact ⟨_, hpack, raw_value_round_trip (fun _ _ => rfl) hportable hpack (by decide +kernel)⟩

omit [Platform] in
/-- A string and some numbers through the indented text. -/
theorem text_round_trip_pair :
    ∃ text, Packable.toString (.pair (.atomic .string) (.vector (.atomic .double)))
        (str "a b", [.finite (1 / 2)]) true = .ok text ∧
      @Packable.fromJson _ .nearest .zero (.pair (.atomic .string) (.vector (.atomic .double)))
        text ([], []) = .ok (str "a b", [.finite (1 / 2)]) := by
  have hfinite : FiniteDouble (1 / 2) :=
    ⟨⟨1, -1, by decide, by decide, by norm_num⟩, le_largest (by norm_num [abs_le])⟩
  have hsame : throughText (1 / 2) = 1 / 2 :=
    through_text_micros (k := 500000) hfinite.1 (by norm_num)
  have hsteady : (Double.finite (1 / 2)).Steady :=
    ⟨fun q hq => Double.finite.inj hq ▸ hfinite, congrArg Double.finite hsame⟩
  refine (@text_round_trip_iff .nearest (fun _ _ => rfl) .zero _
    (.pair (.atomic .string) (.vector (.atomic .double))) (str "a b", [.finite (1 / 2)])
    ⟨(by decide : survives (str "a b") = true), fun x hx => List.mem_singleton.mp hx ▸ hsteady⟩
    true ([], [])).mpr ?_
  exact ⟨⟨trivial, by decide, fun _ _ => trivial⟩, trivial, rfl⟩

end BoostRpc.Json
