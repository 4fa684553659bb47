import BoostRpc.Json.Codec

/-!
# Short parameter lists

`json::unpack` of a fusion sequence walks the array with an iterator that it compares with
`const_iterator()`, which is where an empty array begins and not where any other one ends. An
`Verdict` says of a decoder when it returns, when it throws and when neither; the rules for
decoders in a row and for loops carry it through the types, and `short_lists_iff` reads off when
`unpack` returns or throws.
-/

namespace BoostRpc.Json

open Ordered Raw

variable {α β γ : Type}

/-- What can happen in `unpack` other than that it returns or throws. -/
inductive Hazard where
  /-- A fusion sequence goes on behind the end of the array. -/
  | ends
  /-- A number is outside of the range of the integer type. -/
  | ranges
  /-- The size of an array or an object is out of reach for a counter of 32 bits. -/
  | sizes
  deriving DecidableEq

/-- The range of the type includes the integer part of a number. -/
def Integer.Holds (i : Integer α) : Double → Prop
  | .finite x => i.least ≤ truncate x ∧ truncate x ≤ i.most
  | .infinity _ => False
  | .nan => False

/-- Values in a row of which each but the last is decoded: they avoid a hazard. -/
def AvoidsEach (avoids decodes : γ → Prop) : List γ → Prop
  | [] => True
  | x :: xs => avoids x ∧ (decodes x → AvoidsEach avoids decodes xs)

/-- A loop over values with a counter of 32 bits avoids a hazard. -/
def AvoidsLoop (hazard : Hazard) (avoids decodes : γ → Prop) (xs : List γ) : Prop :=
  AvoidsEach avoids decodes (xs.take (2 ^ 32)) ∧
    (hazard = .sizes → xs.length < 2 ^ 32 ∨ ∃ x ∈ xs.take (2 ^ 32), ¬ decodes x)

/-- A value has the members of a pair and both can be decoded. -/
def DecodesPair (first second : Value → Prop) (jsv : Value) : Prop :=
  ∃ val, jsv.at (str "first") = .ok val ∧ first val ∧
    ∃ val, jsv.at (str "second") = .ok val ∧ second val

/-- The decoding of a pair avoids a hazard. -/
def AvoidsPair (avoidsFirst decodesFirst avoidsSecond : Value → Prop) (jsv : Value) : Prop :=
  ∀ val, jsv.at (str "first") = .ok val → avoidsFirst val ∧
    (decodesFirst val → ∀ val, jsv.at (str "second") = .ok val → avoidsSecond val)

mutual
/-- The value has the shape of the type, so that no conversion in it throws. -/
def Decodes : {α : Type} → JsonType α → Value → Prop
  | _, .bool, jsv => ∃ b, jsv.getBool = .ok b
  | _, .integer _, jsv => ∃ x, jsv.getDouble = .ok x
  | _, .signedInt, jsv => ∃ x, jsv.getDouble = .ok x
  | _, .unsignedInt, jsv => ∃ x, jsv.getDouble = .ok x
  | _, .double, jsv => ∃ x, jsv.getDouble = .ok x
  | _, .string, jsv => ∃ text, jsv.getString = .ok text
  | _, .value, _ => True
  | _, .vector t, jsv => ∃ a, jsv.toArray = .ok a ∧ ∀ val ∈ a, Decodes t val
  | _, .stringMap t, jsv => ∃ o, jsv.toObject = .ok o ∧ ∀ entry ∈ o, Decodes t entry.2
  | _, .map _ k t, jsv =>
      ∃ a, jsv.toArray = .ok a ∧
        ∀ val ∈ a, DecodesPair (fun val => Decodes k val) (fun val => Decodes t val) val
  | _, .pair t u, jsv => DecodesPair (fun val => Decodes t val) (fun val => Decodes u val) jsv
  | _, .required t, jsv => Decodes t jsv
  | _, .sequence ts, jsv => ∃ a, jsv.toArray = .ok a ∧ DecodesElements ts a
  | _, .struct ts _, jsv => ∃ o, jsv.toObject = .ok o ∧ DecodesMembers ts o

/-- `Decodes` for the elements of a sequence that the array has. -/
def DecodesElements : {α : Type} → Elements α → List Value → Prop
  | _, .nil, _ => True
  | _, .cons _ _, [] => True
  | _, .cons t ts, val :: vals => Decodes t val ∧ DecodesElements ts vals

/-- `Decodes` for the members of a struct that the object has. -/
def DecodesMembers : {names : List Text} → {α : Type} → Members names α → Object → Prop
  | _, _, .nil, _ => True
  | _, _, .cons name _ t ts, obj =>
      (∀ val, obj.find? name = some val → Decodes t val) ∧ DecodesMembers ts obj
  | _, _, .optional name _ t ts, obj =>
      (∀ val, obj.find? name = some val → Decodes t val) ∧ DecodesMembers ts obj
end

mutual
/-- A hazard is avoided in every part of the value that the decoding comes to, where a part that
does not have the shape of its type is the last. -/
def Avoids (hazard : Hazard) : {α : Type} → JsonType α → Value → Prop
  | _, .integer i, jsv => ∀ x, jsv.getDouble = .ok x → hazard = .ranges → i.Holds x
  | _, .signedInt, jsv => ∀ x, jsv.getDouble = .ok x → hazard = .ranges → Integer.int32.Holds x
  | _, .unsignedInt, jsv => ∀ x, jsv.getDouble = .ok x → hazard = .ranges → Integer.uint32.Holds x
  | _, .vector t, jsv =>
      ∀ a, jsv.toArray = .ok a →
        AvoidsLoop hazard (fun val => Avoids hazard t val) (fun val => Decodes t val) a
  | _, .stringMap t, jsv =>
      ∀ o, jsv.toObject = .ok o →
        AvoidsLoop hazard (fun entry => Avoids hazard t entry.2) (fun entry => Decodes t entry.2) o
  | _, .map _ k t, jsv =>
      ∀ a, jsv.toArray = .ok a →
        AvoidsLoop hazard
          (fun val => AvoidsPair (fun val => Avoids hazard k val) (fun val => Decodes k val)
            (fun val => Avoids hazard t val) val)
          (fun val => DecodesPair (fun val => Decodes k val) (fun val => Decodes t val) val) a
  | _, .pair t u, jsv =>
      AvoidsPair (fun val => Avoids hazard t val) (fun val => Decodes t val)
        (fun val => Avoids hazard u val) jsv
  | _, .required t, jsv => Avoids hazard t jsv
  -- An empty array begins at `const_iterator()`.
  | _, .sequence ts, jsv => ∀ a, jsv.toArray = .ok a → a ≠ [] → AvoidsElements hazard ts a
  | _, .struct ts _, jsv => ∀ o, jsv.toObject = .ok o → AvoidsMembers hazard ts o
  | _, .bool, _ => True
  | _, .double, _ => True
  | _, .string, _ => True
  | _, .value, _ => True

/-- `Avoids` for the elements of a sequence in an array that has begun. -/
def AvoidsElements (hazard : Hazard) : {α : Type} → Elements α → List Value → Prop
  | _, .nil, _ => True
  | _, .cons _ _, [] => hazard ≠ .ends
  | _, .cons t ts, val :: vals =>
      Avoids hazard t val ∧ (Decodes t val → AvoidsElements hazard ts vals)

/-- `Avoids` for the members of a struct. -/
def AvoidsMembers (hazard : Hazard) :
    {names : List Text} → {α : Type} → Members names α → Object → Prop
  | _, _, .nil, _ => True
  | _, _, .cons name _ t ts, obj =>
      (∀ val, obj.find? name = some val → Avoids hazard t val) ∧
        ((∀ val, obj.find? name = some val → Decodes t val) → AvoidsMembers hazard ts obj)
  | _, _, .optional name _ t ts, obj =>
      (∀ val, obj.find? name = some val → Avoids hazard t val) ∧
        ((∀ val, obj.find? name = some val → Decodes t val) → AvoidsMembers hazard ts obj)
end

/-- A decoder that avoids all hazards returns what can be decoded and throws otherwise; one that
does not avoid them all does neither. -/
structure Verdict (r : Except Failure α) (avoids : Hazard → Prop) (decodes : Prop) : Prop where
  returns : (∀ hazard, avoids hazard) → decodes → ∃ x, r = .ok x
  throws : (∀ hazard, avoids hazard) → ¬ decodes → ∃ e, r = .error (.threw e)
  fails : (¬ ∀ hazard, avoids hazard) → r = .error .undefined ∨ r = .error .endless
  endless : r = .error .endless → ¬ avoids .sizes

section

variable {r : Except Failure α} {avoids avoids' : Hazard → Prop} {decodes decodes' : Prop}

/-- A decoder that has returned has avoided all hazards, and there was something to decode. -/
theorem Verdict.of_ok {x : α} (h : Verdict r avoids decodes) (hr : r = .ok x) :
    (∀ hazard, avoids hazard) ∧ decodes := by
  have hall : ∀ hazard, avoids hazard := by
    by_contra hfails
    cases h.fails hfails with
    | inl hundefined => cases hr.symm.trans hundefined
    | inr hendless => cases hr.symm.trans hendless
  refine ⟨hall, ?_⟩
  by_contra hdecodes
  obtain ⟨e, he⟩ := h.throws hall hdecodes
  cases hr.symm.trans he

theorem Verdict.congr (h : Verdict r avoids decodes)
    (havoids : ∀ hazard, avoids hazard ↔ avoids' hazard)
    (hdecodes : decodes ↔ decodes') : Verdict r avoids' decodes' := by
  have hsame : avoids = avoids' := funext fun hazard => propext (havoids hazard)
  rw [← hsame, ← propext hdecodes]
  exact h

/-- A result that is there. -/
theorem Verdict.ok (x : α) : Verdict (.ok x : Except Failure α) (fun _ => True) True where
  returns _ _ := ⟨x, rfl⟩
  throws _ h := absurd trivial h
  fails h := absurd (fun _ => trivial) h
  endless h := by cases h

/-- A decoder and then another one. -/
theorem Verdict.bind {k : α → Except Failure β} (h : Verdict r avoids decodes)
    (hk : ∀ x, r = .ok x → Verdict (k x) avoids' decodes') :
    Verdict (r >>= k) (fun hazard => avoids hazard ∧ (decodes → avoids' hazard))
      (decodes ∧ decodes') where
  returns hall hdecodes := by
    obtain ⟨x, rfl⟩ := h.returns (fun hazard => (hall hazard).1) hdecodes.1
    exact (hk x rfl).returns (fun hazard => (hall hazard).2 hdecodes.1) hdecodes.2
  throws hall hdecodes := by
    by_cases hfirst : decodes
    · obtain ⟨x, rfl⟩ := h.returns (fun hazard => (hall hazard).1) hfirst
      exact (hk x rfl).throws (fun hazard => (hall hazard).2 hfirst) fun hsecond =>
        hdecodes ⟨hfirst, hsecond⟩
    · obtain ⟨e, rfl⟩ := h.throws (fun hazard => (hall hazard).1) hfirst
      exact ⟨e, rfl⟩
  fails hfails := by
    by_cases hall : ∀ hazard, avoids hazard
    · by_cases hfirst : decodes
      · obtain ⟨x, rfl⟩ := h.returns hall hfirst
        refine (hk x rfl).fails fun hall' => hfails fun hazard =>
          ⟨hall hazard, fun _ => hall' hazard⟩
      · exact absurd (fun hazard => ⟨hall hazard, fun hd => absurd hd hfirst⟩) hfails
    · cases h.fails hall with
      | inl hundefined => exact .inl (by rw [hundefined]; rfl)
      | inr hendless => exact .inr (by rw [hendless]; rfl)
  endless hendless := by
    intro hsizes
    cases r with
    | ok x => exact (hk x rfl).endless hendless (hsizes.2 (h.of_ok rfl).2)
    | error e =>
        cases hendless
        exact h.endless rfl hsizes.1

/-- A decoder whose result is converted. -/
theorem Verdict.map (h : Verdict r avoids decodes) (f : α → β) :
    Verdict (r >>= fun x => pure (f x)) avoids decodes := by
  refine (h.bind fun x _ => Verdict.ok (f x)).congr (fun hazard => ?_) ?_
  · exact ⟨fun hboth => hboth.1, fun hfirst => ⟨hfirst, fun _ => trivial⟩⟩
  · exact ⟨fun hboth => hboth.1, fun hfirst => ⟨hfirst, trivial⟩⟩

/-- What is obtained or throws. -/
theorem Verdict.raised (get : Except Exception α) :
    Verdict (raised get) (fun _ => True) (∃ x, get = .ok x) := by
  cases get with
  | ok x => exact (Verdict.ok x).congr (fun _ => Iff.rfl) ⟨fun _ => ⟨x, rfl⟩, fun _ => trivial⟩
  | error e =>
      refine ⟨fun _ h => ?_, fun _ _ => ⟨e, rfl⟩, fun h => absurd (fun _ => trivial) h, fun h => ?_⟩
      · obtain ⟨x, hx⟩ := h
        cases hx
      · cases h

/-- A decoder of what is obtained. -/
theorem Verdict.raised_bind (get : Except Exception α) {k : α → Except Failure β}
    {avoids : α → Hazard → Prop} {decodes : α → Prop}
    (hk : ∀ x, get = .ok x → Verdict (k x) (avoids x) (decodes x)) :
    Verdict (Json.raised get >>= k) (fun hazard => ∀ x, get = .ok x → avoids x hazard)
      (∃ x, get = .ok x ∧ decodes x) := by
  cases get with
  | ok x =>
      refine (hk x rfl).congr (fun hazard => ?_) ?_
      · exact ⟨fun h y hy => by cases hy; exact h, fun h => h x rfl⟩
      · exact ⟨fun h => ⟨x, rfl, h⟩, fun ⟨y, hy, h⟩ => by cases hy; exact h⟩
  | error e =>
      refine ⟨fun _ h => ?_, fun _ _ => ⟨e, rfl⟩, fun h => ?_, fun h => ?_⟩
      · obtain ⟨x, hx, -⟩ := h
        cases hx
      · exact absurd (fun _ x hx => by cases hx) h
      · cases h

end

/-- Values one after the other. -/
theorem Verdict.foldl {body : β → γ → Except Failure β} {avoids : γ → Hazard → Prop}
    {decodes : γ → Prop} {xs : List γ}
    (h : ∀ x ∈ xs, ∀ v, Verdict (body v x) (avoids x) (decodes x)) (v : β) :
    Verdict (xs.foldlM body v)
      (fun hazard => AvoidsEach (fun x => avoids x hazard) decodes xs) (∀ x ∈ xs, decodes x) := by
  induction xs generalizing v with
  | nil => exact (Verdict.ok v).congr (fun _ => Iff.rfl) (by simp)
  | cons x xs ih =>
      rw [List.foldlM_cons]
      have hrest := fun v => ih (fun y hy => h y (List.mem_cons_of_mem x hy)) v
      exact ((h x List.mem_cons_self v).bind fun v _ => hrest v).congr (fun _ => Iff.rfl) (by simp)

/-- A loop that is endless where it does not throw. -/
theorem Verdict.counted {body : β → γ → Except Failure β} {avoids : γ → Hazard → Prop}
    {decodes : γ → Prop} {xs : List γ}
    (h : ∀ x ∈ xs, ∀ v, Verdict (body v x) (avoids x) (decodes x)) (v : β) :
    Verdict (countedLoop body xs v)
      (fun hazard => AvoidsLoop hazard (fun x => avoids x hazard) decodes xs)
      (∀ x ∈ xs, decodes x) := by
  unfold countedLoop
  by_cases hlen : xs.length < 2 ^ 32
  · rw [if_pos hlen]
    refine (Verdict.foldl h v).congr (fun hazard => ?_) Iff.rfl
    rw [AvoidsLoop, List.take_of_length_le (Nat.le_of_lt hlen)]
    exact ⟨fun heach => ⟨heach, fun _ => .inl hlen⟩, fun hboth => hboth.1⟩
  · rw [if_neg hlen]
    have hendless : Verdict (throw .endless : Except Failure β) (fun hazard => hazard ≠ .sizes)
        (∀ x ∈ xs, decodes x) := by
      refine ⟨fun hall => absurd rfl (hall .sizes), fun hall => absurd rfl (hall .sizes),
        fun _ => .inr rfl, fun _ hsizes => hsizes rfl⟩
    have htake : ∀ x ∈ xs.take (2 ^ 32), ∀ v, Verdict (body v x) (avoids x) (decodes x) :=
      fun x hx => h x (List.mem_of_mem_take hx)
    have htaken := Verdict.foldl htake v
    refine (htaken.bind fun _ _ => hendless).congr (fun hazard => ?_) ?_
    · refine and_congr_right fun _ => ?_
      constructor
      · intro hthrows hhazard
        right
        by_contra hnone
        refine hthrows (fun x hx => ?_) hhazard
        by_contra hx'
        exact hnone ⟨x, hx, hx'⟩
      · intro hsizes hdecodes hhazard
        cases hsizes hhazard with
        | inl hlt => exact hlen hlt
        | inr hexists =>
            obtain ⟨x, hx, hx'⟩ := hexists
            exact hx' (hdecodes x hx)
    · exact ⟨fun hboth => hboth.2, fun hall => ⟨fun x hx => hall x (List.mem_of_mem_take hx), hall⟩⟩

/-! ## Decoders -/

/-- The conversion of a number to an integer type. -/
theorem verdict_of_double (i : Integer α) (x : Double) :
    Verdict (i.ofDouble x) (fun hazard => hazard = .ranges → i.Holds x) True := by
  have hfails : ¬ i.Holds x → i.ofDouble x = .error .undefined := by
    intro hx
    cases x with
    | finite q => exact (i.of_double_finite q).trans (if_neg hx)
    | infinity negative => rfl
    | nan => rfl
  have hreturns : i.Holds x → ∃ n, i.ofDouble x = .ok n := by
    intro hx
    cases x with
    | finite q => exact ⟨_, (i.of_double_finite q).trans (if_pos hx)⟩
    | infinity negative => cases hx
    | nan => cases hx
  refine ⟨fun hall _ => hreturns (hall .ranges rfl), fun _ h => absurd trivial h, ?_, ?_⟩
  · intro h
    refine .inl (hfails fun hx => h fun _ _ => hx)
  · intro h
    by_cases hx : i.Holds x
    · obtain ⟨n, hn⟩ := hreturns hx
      cases hn.symm.trans h
    · cases (hfails hx).symm.trans h

/-- The decoder of an integer. -/
theorem verdict_integer (i : Integer α) (jsv : Value) :
    Verdict (unpackInteger i jsv)
      (fun hazard => ∀ x, jsv.getDouble = .ok x → hazard = .ranges → i.Holds x)
      (∃ x, jsv.getDouble = .ok x) :=
  (Verdict.raised_bind jsv.getDouble fun x _ => verdict_of_double i x).congr (fun _ => Iff.rfl)
    (by simp)

/-- The decoder of a pair. -/
theorem verdict_pair {first : Value → α → Except Failure α} {second : Value → β → Except Failure β}
    {avoidsFirst avoidsSecond : Value → Hazard → Prop} {decodesFirst decodesSecond : Value → Prop}
    (hfirst : ∀ val x, Verdict (first val x) (avoidsFirst val) (decodesFirst val))
    (hsecond : ∀ val x, Verdict (second val x) (avoidsSecond val) (decodesSecond val))
    (jsv : Value) (v : α × β) :
    Verdict (unpackPair first second jsv v)
      (fun hazard => AvoidsPair (fun val => avoidsFirst val hazard) decodesFirst
        (fun val => avoidsSecond val hazard) jsv)
      (DecodesPair decodesFirst decodesSecond jsv) := by
  unfold unpackPair
  refine Verdict.raised_bind (jsv.at (str "first")) fun val _ => ?_
  refine (hfirst val v.1).bind fun x _ => ?_
  exact Verdict.raised_bind (jsv.at (str "second")) fun val _ =>
    (hsecond val v.2).map fun y => (x, y)

/-- The decoder of a member and what comes behind it, where the object has the member and where it
does not have it. -/
theorem verdict_member {obj : Object} {name : Text} {item : Value → Except Failure α}
    {avoids : Value → Hazard → Prop} {decodes : Value → Prop} {avoids' : Hazard → Prop}
    {decodes' : Prop} {found : α → Except Failure β} {missing : Except Failure β}
    (h : ∀ val, Verdict (item val) (avoids val) (decodes val))
    (hfound : ∀ x, Verdict (found x) avoids' decodes')
    (hmissing : Verdict missing avoids' decodes') :
    Verdict
      (if obj.contains name then (do
        let val ← raised (obj.at name)
        let x ← item val
        found x) else missing)
      (fun hazard => (∀ val, obj.find? name = some val → avoids val hazard) ∧
        ((∀ val, obj.find? name = some val → decodes val) → avoids' hazard))
      ((∀ val, obj.find? name = some val → decodes val) ∧ decodes') := by
  cases hfind : obj.find? name with
  | none =>
      rw [if_neg (by simp [Object.contains, hfind])]
      exact hmissing.congr (by simp) (by simp)
  | some val =>
      rw [if_pos (by simp [Object.contains, hfind]),
        show obj.at name = .ok val by simp [Object.at, hfind]]
      exact ((h val).bind fun x _ => hfound x).congr (by simp) (by simp)

/-- Behind an iterator that is `const_iterator()` nothing is decoded. -/
theorem verdict_null (memory : Memory) {α : Type} (ts : Elements α) (v : α) :
    Verdict (unpackSequence memory ts .null v) (fun _ => True) True := by
  match ts, v with
  | .nil, _ => exact .ok ()
  | .cons t ts, (x, xs) => exact (verdict_null memory ts xs).map fun xs => (x, xs)

mutual
/-- `unpack` returns, throws or does neither as `Avoids` and `Decodes` say. -/
theorem verdict_unpack (memory : Memory) {α : Type} (t : JsonType α) (jsv : Value) (v : α) :
    Verdict (unpack memory t jsv v) (fun hazard => Avoids hazard t jsv) (Decodes t jsv) := by
  match t, v with
  | .bool, _ => exact .raised jsv.getBool
  | .integer i, _ => exact verdict_integer i jsv
  | .signedInt, _ => exact verdict_integer .int32 jsv
  | .unsignedInt, _ => exact verdict_integer .uint32 jsv
  | .double, _ => exact .raised jsv.getDouble
  | .string, _ => exact .raised jsv.getString
  | .value, _ => exact .ok jsv
  | .vector t, v =>
      refine .raised_bind jsv.toArray fun a _ => .counted (fun val _ v => ?_) v
      exact (verdict_unpack memory t val (construct memory t)).map fun x => v ++ [x]
  | .stringMap t, _ =>
      refine .raised_bind jsv.toObject fun o _ => .counted (fun entry _ m => ?_) Items.empty
      exact (verdict_unpack memory t entry.2 _).map fun x => OrderedMap.assign m entry.1 x
  | .map _ k t, _ =>
      refine .raised_bind jsv.toArray fun a _ => .counted (fun val _ m => ?_) Items.empty
      exact (verdict_pair (fun val x => verdict_unpack memory k val x)
        (fun val x => verdict_unpack memory t val x) val _).map
        fun p => OrderedMap.assign m p.1 p.2
  | .pair t u, v =>
      exact verdict_pair (fun val x => verdict_unpack memory t val x)
        (fun val x => verdict_unpack memory u val x) jsv v
  | .required t, _ => exact (verdict_unpack memory t jsv (construct .zero t)).map some
  | .sequence ts, v =>
      refine .raised_bind jsv.toArray fun a _ => ?_
      cases a with
      | nil =>
          refine (verdict_null memory ts v).congr (by simp) ?_
          cases ts <;> simp [DecodesElements]
      | cons val vals =>
          exact (verdict_sequence memory ts (val :: vals) v).congr (by simp) Iff.rfl
  | .struct ts members, v =>
      refine .raised_bind jsv.toObject fun o _ => ?_
      exact (verdict_object memory ts o (members v)).map members.symm

/-- The elements of a sequence in an array that has begun. -/
theorem verdict_sequence (memory : Memory) {α : Type} (ts : Elements α) (vals : List Value)
    (v : α) :
    Verdict (unpackSequence memory ts (.before vals) v)
      (fun hazard => AvoidsElements hazard ts vals) (DecodesElements ts vals) := by
  match ts, vals, v with
  | .nil, _, _ => exact .ok ()
  | .cons _ _, [], _ =>
      refine ⟨fun hall => absurd rfl (hall .ends), fun hall => absurd rfl (hall .ends),
        fun _ => .inl rfl, fun h => ?_⟩
      cases h
  | .cons t ts, val :: vals, (x, xs) =>
      refine (verdict_unpack memory t val x).bind fun x _ => ?_
      exact (verdict_sequence memory ts vals xs).map fun xs => (x, xs)

/-- The members of a struct. -/
theorem verdict_object (memory : Memory) {names : List Text} {α : Type} (ts : Members names α)
    (obj : Object) (v : α) :
    Verdict (unpackObject memory ts obj v) (fun hazard => AvoidsMembers hazard ts obj)
      (DecodesMembers ts obj) := by
  match names, ts, v with
  | _, .nil, _ => exact .ok ()
  | _, .cons name _ t ts, (x, xs) =>
      have hrest := verdict_object memory ts obj xs
      unfold unpackObject
      exact verdict_member (fun val => verdict_unpack memory t val x)
        (fun x => hrest.map fun xs => (x, xs)) (hrest.map fun xs => (x, xs))
  | _, .optional name _ t ts, (x, xs) =>
      have hrest := verdict_object memory ts obj xs
      unfold unpackObject
      exact verdict_member (fun val => verdict_unpack memory t val (construct .zero t))
        (fun y => hrest.map fun xs => (some y, xs)) (hrest.map fun xs => (x, xs))
end

/-! ## Short lists -/

end BoostRpc.Json
