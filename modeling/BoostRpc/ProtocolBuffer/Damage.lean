import BoostRpc.ProtocolBuffer.Endings

/-!
# Damaged input

Errors travel through the nested loops of the unpacker as exceptions, as the member `error` and as
the results of functions, and `unpack` drops the last two. `first_flaw_runs` and `behind_runs`
follow them: an exception leaves `unpack` for some first flaws of a buffer, and nothing does for the
others. `visible_iff` says so for every buffer, `damage_visible_iff` for damaged ones.
-/

namespace BoostRpc.ProtocolBuffer

open Raw

variable {β γ : Type}

/-! ## Fields of a message -/

theorem key_lt (tag : UInt32) : (tag >>> 3).toNat < 2 ^ 29 := by
  have hlt := tag.toNat_lt
  rw [UInt32.toNat_shiftRight, Nat.shiftRight_eq_div_pow]
  show tag.toNat / 8 < 2 ^ 29
  omega

theorem shapes_length : {ts : List Type} → (fs : Fields ts) → fs.shapes.length = ts.length
  | _, .nil => rfl
  | _, .cons _ _ fs => congrArg (· + 1) (shapes_length fs)

/-- The visit of a key that the fields have. -/
theorem fields_found (io : Varints) {ts : List Type} (fs : Fields ts) {i j : Nat} {k : Shape}
    (h : fs.shapes[j]? = some k) (hfew : i + ts.length ≤ 2 ^ 29) (values : Values ts) :
    ∃ (α : Type) (f : Field α) (name : Text) (x : α) (put : α → Values ts), f.shape = k ∧
      ∀ type, unpackFields io fs i (UInt32.ofNat (i + j)) type values = within put
        (unpackMember io f name (UInt32.ofNat (i + j)) (UInt32.ofNat (i + j)) type x) := by
  match ts, fs, values with
  | _, .nil, _ => exact absurd h (by simp [Fields.shapes])
  | α :: ts, .cons name f fs, (value, values) =>
      rw [List.length_cons] at hfew
      cases j with
      | zero =>
          refine ⟨α, f, name, value, fun x => (x, values), Option.some.inj h, ?_⟩
          intro type
          rw [Nat.add_zero, unpackFields, if_pos rfl]
          rfl
      | succ j =>
          rw [Fields.shapes, List.getElem?_cons_succ] at h
          have hj : j < ts.length := by
            rw [← shapes_length fs]
            exact (List.getElem?_eq_some_iff.mp h).1
          have hne := key_ne (show i + (j + 1) < 2 ^ 29 by omega) (show i < 2 ^ 29 by omega)
            (show i + (j + 1) ≠ i by omega)
          obtain ⟨β, g, name, x, put, hshape, hrun⟩ :=
            fields_found io fs (i := i + 1) h (by omega) values
          refine ⟨β, g, name, x, fun x => (value, put x), hshape, ?_⟩
          intro type
          rw [unpackFields, if_neg hne]
          have hvisit := hrun type
          rw [show i + 1 + j = i + (j + 1) by omega] at hvisit
          rw [hvisit]
          exact within_within (fun values => (value, values)) put _

/-- The visit of the key of a tag. -/
theorem fields_at {io : Varints} {ts : List Type} (fs : Fields ts) (hfew : ts.length ≤ 2 ^ 29)
    {tag : UInt32} {k : Shape} (h : shapeAt fs.shapes tag = some k) (values : Values ts) :
    ∃ (α : Type) (f : Field α) (name : Text) (x : α) (put : α → Values ts), f.shape = k ∧
      ∀ type, unpackFields io fs 0 (tag >>> 3) type values =
        within put (unpackMember io f name (tag >>> 3) (tag >>> 3) type x) := by
  have hfound := fields_found io fs (i := 0) h (by omega) values
  rwa [Nat.zero_add, UInt32.ofNat_toNat] at hfound

theorem fields_unknown {io : Varints} {ts : List Type} (fs : Fields ts) {tag : UInt32}
    (h : shapeAt fs.shapes tag = none) (type : UInt32) (values : Values ts) (s : Datastream) :
    unpackFields io fs 0 (tag >>> 3) type values s = .error (.threw .fieldNotFound) := by
  rw [shapeAt, List.getElem?_eq_none_iff, shapes_length] at h
  have hrun := unpack_fields_unknown io fs (i := 0) (by omega) (key_lt tag) type values s
  rwa [UInt32.ofNat_toNat] at hrun

/-- The visit of the key of a tag ends as the member does. -/
theorem field_at {io : Varints} {ts : List Type} {fs : Fields ts} (hfew : ts.length ≤ 2 ^ 29)
    {bytes : Text} {k : Shape} {tag : UInt32} (h : IsTag io fs.shapes bytes k tag)
    (values : Values ts) (s : Datastream) {outcome : Outcome}
    (hmember : ∀ {α : Type} (f : Field α) (name : Text) (x : α), f.shape = k →
      Ended Prod.snd (unpackMember io f name (tag >>> 3) (tag >>> 3) k.wireType.value x s)
        outcome) :
    Ended Prod.snd (unpackFields io fs 0 (tag >>> 3) (tag &&& 7) values s) outcome := by
  obtain ⟨α, f, name, x, put, hshape, hrun⟩ := fields_at fs hfew h.field values
  rw [hrun, h.type]
  exact (hmember f name x hshape).map (fun p => (put p.1, p.2)) fun _ => rfl

/-! ## The loop -/

section Loop

variable {io : Varints} {unpackField : UInt32 → UInt32 → β → Unpack (β × Bool)}

/-- Bytes that end inside a tag end the loop. -/
theorem loop_cut {s : Datastream} {bytes : Text} {n : UInt32} {past : Nat} (hs : Inside s)
    (hpos : bytes ≠ []) (hcut : Cut io.getUnsigned bytes n past) (hrest : s.rest = bytes)
    (fuel : Nat) (x : β) :
    unpackLoop io unpackField (fuel + 1) x s =
      .ok ((x, false), s.skip (bytes.length + past)) := by
  have hleft : UInt32.ofNat s.rest.length ≠ 0 := by
    intro heq
    have hzero := congrArg UInt32.toNat heq
    rw [to_nat_rest hs, hrest] at hzero
    exact hpos (List.eq_nil_of_length_eq_zero hzero)
  have hvalid : valid (s.skip (bytes.length + past)) =
      .ok (false, s.skip (bytes.length + past)) := by
    rw [valid_eq, (hcut.outside hs hrest).invalid]
  rw [unpackLoop, bind_of_ok (remaining_eq hs), if_neg hleft, bind_of_ok (extract_cut hcut hrest),
    bind_of_ok hvalid]
  rfl

/-- So does a stream behind its end. -/
theorem loop_outside (hio : io.Invalidating) {s : Datastream} {past : Nat} (hs : Outside s past)
    (fuel : Nat) (x : β) :
    ∃ s', unpackLoop io unpackField (fuel + 1) x s = .ok ((x, false), s') := by
  obtain ⟨n, more, hcut⟩ : ∃ n more, Cut io.getUnsigned [] n more := by
    rcases hio.unsigned [] with ⟨number, n, rest, hnil, hnumber⟩ | hcut
    · exact absurd (List.append_eq_nil_iff.mp hnil.symm).1 hnumber.1
    · exact hcut
  have hremaining := hs.remaining
  have hbounded := hs.bounded
  have hleft : s.remaining ≠ 0 := by
    intro heq
    rw [heq] at hremaining
    have hzero : (0 : UInt32).toNat = 0 := rfl
    omega
  have hasked : remaining s = .ok (s.remaining, s) := rfl
  have hvalid : valid (s.skip (([] : Text).length + more)) =
      .ok (false, s.skip (([] : Text).length + more)) := by
    have hpos := hs.pos
    have hbehind := hs.behind
    rw [valid_eq, Datastream.valid, decide_eq_false]
    show ¬ s.pos + (0 + more) ≤ s.data.length
    omega
  refine ⟨s.skip (([] : Text).length + more), ?_⟩
  rw [unpackLoop, bind_of_ok hasked, if_neg hleft, bind_of_ok (extract_cut hcut hs.rest),
    bind_of_ok hvalid]
  rfl

/-- A turn that passes a field. -/
theorem loop_passed {s s' : Datastream} {n : UInt32} {number r : Text} (hs : Inside s)
    (hn : IsNumber io.getUnsigned number n) (h : s.rest = number ++ r) {x y : β} {error : Bool}
    (hfield : unpackField (n >>> 3) (n &&& 7) x (s.skip number.length) = .ok ((y, error), s'))
    (fuel : Nat) :
    unpackLoop io unpackField (fuel + 1) x s =
      if error then .ok ((y, false), s') else unpackLoop io unpackField fuel y s' := by
  rw [loop_number hs (List.length_pos_iff.mpr hn.1) hn.2 h, bind_of_ok hfield]
  cases error <;> rfl

/-- A turn whose field is not read. -/
theorem loop_failed {s : Datastream} {n : UInt32} {number r : Text} (hs : Inside s)
    (hn : IsNumber io.getUnsigned number n) (h : s.rest = number ++ r) {x : β} {e : Failure}
    (hfield : unpackField (n >>> 3) (n &&& 7) x (s.skip number.length) = .error e) (fuel : Nat) :
    unpackLoop io unpackField (fuel + 1) x s = .error e := by
  rw [loop_number hs (List.length_pos_iff.mpr hn.1) hn.2 h, bind_of_error hfield]

end Loop

/-- On these bytes the loop of a message with these fields ends as the flaw says. -/
def RunsTo (io : Varints) (shapes : List Shape) (bytes : Text) (flaw : Option Flaw) : Prop :=
  ∀ (ts : List Type) (fs : Fields ts), ts.length ≤ 2 ^ 29 → fs.shapes = shapes →
    ∀ s, Inside s → s.rest = bytes → ∀ fuel, bytes.length < fuel →
      ∀ values, LoopEnded (unpackLoop io
        (fun field type values => unpackFields io fs 0 field type values) fuel values s) flaw

/-- The loop of a message runs over its fields. -/
theorem message_runs {io : Varints} {S : Type} {m : Message S} {bytes : Text} {flaw : Option Flaw}
    (h : RunsTo io m.shapes bytes flaw) (hsmall : bytes.length < 2 ^ 32) (x : S) :
    LoopEnded (unpackMessage io m x (.new bytes)) flaw := by
  cases m with
  | reflect few fields members =>
      have hloop := h _ fields few rfl _ (inside_new hsmall) rfl (bytes.length + 2) (by omega)
        (members x)
      have hturns : turns (.new bytes) = .ok (bytes.length + 2, .new bytes) := rfl
      rw [unpackMessage, bind_of_ok hturns]
      cases hrun : unpackLoop io
          (fun field type values => unpackFields io fields 0 field type values)
          (bytes.length + 2) (members x) (.new bytes) with
      | error e =>
          rw [hrun] at hloop
          rw [bind_of_error hrun]
          cases hloop with
          | threw e flaw hflaw => exact .threw e flaw hflaw
          | failed fault flaw hflaw => exact .failed fault flaw hflaw
      | ok p =>
          obtain ⟨⟨values, read⟩, s⟩ := p
          rw [hrun] at hloop
          rw [bind_of_ok hrun]
          cases hloop with
          | read values s => exact .read _ _
          | dropped values s flaw hflaw => exact .dropped _ _ flaw hflaw

/-- No bytes are a message without a field that is set. -/
theorem unpack_message_nil (io : Varints) {S : Type} (m : Message S) (x : S) :
    unpackMessage io m x (.new []) = .ok ((x, true), .new []) := by
  cases m with
  | reflect few fields members =>
      have hturns : turns (.new []) = .ok (2, .new []) := rfl
      have hremaining : remaining (.new []) = .ok (0, .new []) := rfl
      rw [unpackMessage, bind_of_ok hturns, unpackLoop, bind_assoc, bind_of_ok hremaining,
        if_pos rfl, pure_bind]
      show Except.ok ((members.symm (members x), true), Datastream.new []) = _
      rw [Equiv.symm_apply_apply]

/-- A nested message ends as its own loop does. -/
theorem nested_runs {io : Varints} {α : Type} {f : Field α} {inner : List Shape}
    (hshape : f.shape = .message inner) (name : Text) (key : UInt32) (value : α) {s : Datastream}
    (hs : Inside s) {size content rest : Text} {n : UInt32} (hsize : IsNumber io.getUnsigned size n)
    (hn : n.toNat = content.length) (hrest : s.rest = size ++ (content ++ rest))
    {flaw : Option Flaw} (h : RunsTo io inner content flaw) :
    Ended Prod.snd (unpackMember io f name key key WireType.lengthDelimited.value value s)
      (flaw.elim (.passes rest) .stops) := by
  obtain ⟨S, m, x, rfl, hconverts⟩ := member_message io name key f hshape value
  have hsmall : content.length < 2 ^ 32 := hn ▸ n.toNat_lt
  exact hconverts.ended (ended_content hs name hsize hn hrest (message_runs h hsmall x))

/-- On these bytes a field of this shape ends as the outcome says. -/
def FieldRunsTo (io : Varints) (k : Shape) (bytes : Text) (outcome : Outcome) : Prop :=
  ∀ (α : Type) (f : Field α), f.shape = k → ∀ (name : Text) (key : UInt32) (value : α) s,
    Inside s → s.rest = bytes →
      Ended Prod.snd (unpackMember io f name key key k.wireType.value value s) outcome

section Runs

variable {io : Varints} {shapes : List Shape} {tag bytes rest : Text} {n : UInt32} {k : Shape}

theorem runs_unknown (hn : IsNumber io.getUnsigned tag n) (hkey : shapeAt shapes n = none) :
    RunsTo io shapes (tag ++ rest) (some .unknownKey) := by
  intro ts fs hfew hshapes s hs hrest fuel hfuel values
  subst hshapes
  obtain ⟨fuel, rfl⟩ : ∃ f, fuel = f + 1 := ⟨fuel - 1, by omega⟩
  rw [loop_failed hs hn hrest (fields_unknown fs hkey _ values _)]
  exact .threw _ .unknownKey rfl

theorem runs_wrong_type (hn : IsNumber io.getUnsigned tag n) (hkey : shapeAt shapes n = some k)
    (htype : n &&& 7 ≠ k.wireType.value) : RunsTo io shapes (tag ++ rest) (some .wrongType) := by
  intro ts fs hfew hshapes s hs hrest fuel hfuel values
  subst hshapes
  obtain ⟨fuel, rfl⟩ : ∃ f, fuel = f + 1 := ⟨fuel - 1, by omega⟩
  obtain ⟨α, f, name, x, put, hshape, hrun⟩ := fields_at fs hfew hkey values
  have hrefused := member_refuses io name (n >>> 3) f (hshape.symm ▸ htype) x (s.skip tag.length)
  have hfield := (congrFun (hrun (n &&& 7)) (s.skip tag.length)).trans (bind_of_error hrefused)
  rw [loop_failed hs hn hrest hfield]
  exact .threw _ .wrongType rfl

/-- The loop goes on behind a field that is passed. -/
theorem runs_passed (htag : IsTag io shapes tag k n) (hle : rest.length ≤ bytes.length)
    (hfield : FieldRunsTo io k bytes (.passes rest)) {flaw : Option Flaw}
    (hrun : RunsTo io shapes rest flaw) : RunsTo io shapes (tag ++ bytes) flaw := by
  intro ts fs hfew hshapes s hs hrest fuel hfuel values
  subst hshapes
  obtain ⟨fuel, rfl⟩ : ∃ f, fuel = f + 1 := ⟨fuel - 1, by omega⟩
  obtain ⟨hinside, hleft⟩ := hs.behind hrest
  have hended := field_at hfew htag values (s.skip tag.length) fun f name x hshape =>
    hfield _ f hshape name (n >>> 3) x _ hinside hleft
  have hpos := List.length_pos_iff.mpr htag.number.1
  rw [List.length_append] at hfuel
  generalize hres : unpackFields io fs 0 (n >>> 3) (n &&& 7) values (s.skip tag.length) = res
    at hended
  cases hended with
  | passes p s' _ herror hs' hrest' =>
      obtain ⟨values', error⟩ := p
      obtain rfl : error = false := herror
      rw [loop_passed hs htag.number hrest hres]
      exact hrun _ fs hfew rfl s' hs' hrest' fuel (by omega) values'

/-- The loop comes no further than a field that is not. -/
theorem runs_stopped (hio : io.Invalidating) (htag : IsTag io shapes tag k n) {flaw : Flaw}
    (hfield : FieldRunsTo io k bytes (.stops flaw)) :
    RunsTo io shapes (tag ++ bytes) (some flaw) := by
  intro ts fs hfew hshapes s hs hrest fuel hfuel values
  subst hshapes
  obtain ⟨fuel, rfl⟩ : ∃ f, fuel = f + 1 := ⟨fuel - 1, by omega⟩
  obtain ⟨hinside, hleft⟩ := hs.behind hrest
  have hended := field_at hfew htag values (s.skip tag.length) fun f name x hshape =>
    hfield _ f hshape name (n >>> 3) x _ hinside hleft
  have hpos := List.length_pos_iff.mpr htag.number.1
  rw [List.length_append] at hfuel
  generalize hres : unpackFields io fs 0 (n >>> 3) (n &&& 7) values (s.skip tag.length) = res
    at hended
  cases hended with
  | threw e _ hflaw =>
      rw [loop_failed hs htag.number hrest hres]
      exact .threw e flaw hflaw
  | failed fault _ hflaw =>
      rw [loop_failed hs htag.number hrest hres]
      exact .failed fault flaw hflaw
  | flagged p s' _ hflaw herror =>
      obtain ⟨values', error⟩ := p
      obtain rfl : error = true := herror
      rw [loop_passed hs htag.number hrest hres]
      exact .dropped _ _ flaw hflaw
  | outside p s' past _ hflaw herror houtside =>
      -- the field itself is read, and the next turn finds the stream behind its end
      obtain ⟨values', error⟩ := p
      obtain rfl : error = false := herror
      obtain ⟨fuel, rfl⟩ : ∃ f, fuel = f + 1 := ⟨fuel - 1, by omega⟩
      obtain ⟨s'', hend⟩ : ∃ s'', unpackLoop io
          (fun field type values => unpackFields io fs 0 field type values) (fuel + 1) values' s' =
            .ok ((values', false), s'') := loop_outside hio houtside fuel values'
      rw [loop_passed hs htag.number hrest hres]
      exact hend ▸ .dropped _ _ flaw hflaw

end Runs

mutual
/-- The loop ends as the first flaw says. -/
theorem first_flaw_runs {io : Varints} (hio : io.Invalidating) {shapes : List Shape} {bytes : Text}
    {flaw : Option Flaw} (h : FirstFlaw io shapes bytes flaw) : RunsTo io shapes bytes flaw := by
  match h with
  | .none _ =>
      intro ts fs hfew hshapes s hs hrest fuel hfuel values
      obtain ⟨fuel, rfl⟩ : ∃ f, fuel = f + 1 := ⟨fuel - 1, by omega⟩
      rw [loop_end hs hrest]
      exact .read _ _
  | .cut _ _ n past hpos hcut =>
      intro ts fs hfew hshapes s hs hrest fuel hfuel values
      obtain ⟨fuel, rfl⟩ : ∃ f, fuel = f + 1 := ⟨fuel - 1, by omega⟩
      rw [loop_cut hs hpos hcut hrest]
      exact .dropped _ _ .cut rfl
  | .unknownKey _ tag n rest hn hkey => exact runs_unknown hn hkey
  | .wrongType _ tag n k rest hn hkey htype => exact runs_wrong_type hn hkey htype
  | .passed _ tag n k behind rest flaw htag hbehind hflaw =>
      exact runs_passed htag (behind_length_le hbehind) (behind_runs hio hbehind)
        (first_flaw_runs hio hflaw)
  | .stopped _ tag n k behind flaw htag hbehind =>
      exact runs_stopped hio htag (behind_runs hio hbehind)

/-- A field ends as is said of the bytes behind its tag. -/
theorem behind_runs {io : Varints} (hio : io.Invalidating) {k : Shape} {bytes : Text}
    {outcome : Outcome} (h : Behind io k bytes outcome) : FieldRunsTo io k bytes outcome := by
  match h with
  | .fixed _ bytes rest hsize =>
      intro α f hshape name key value s hs hrest
      obtain ⟨β, t, x, rfl, hconverts⟩ := member_fixed io name key f hshape value
      exact hconverts.ended (ended_fixed io hs t x (.fixed _ bytes rest hsize) hrest)
  | .short _ bytes hshort =>
      intro α f hshape name key value s hs hrest
      obtain ⟨β, t, x, rfl, hconverts⟩ := member_fixed io name key f hshape value
      exact hconverts.ended (ended_fixed io hs t x (.short _ bytes hshort) hrest)
  | .unsigned bytes n rest hn =>
      intro α f hshape name key value s hs hrest
      exact (member_unsigned io name key f hshape value).ended (ended_number hs hn hrest)
  | .unsignedCut bytes n past hcut =>
      intro α f hshape name key value s hs hrest
      exact (member_unsigned io name key f hshape value).ended (ended_cut hs hcut hrest)
  | .signed bytes n rest hn =>
      intro α f hshape name key value s hs hrest
      exact (member_signed io name key f hshape value).ended (ended_number hs hn hrest)
  | .signedCut bytes n past hcut =>
      intro α f hshape name key value s hs hrest
      exact (member_signed io name key f hshape value).ended (ended_cut hs hcut hrest)
  | .chars size n content rest hsize hn =>
      intro α f hshape name key value s hs hrest
      exact (member_chars io name key f hshape value).ended
        (ended_chars hs (.chars size n content rest hsize hn) hrest)
  | .charsBeyond size n rest hsize hn =>
      intro α f hshape name key value s hs hrest
      exact (member_chars io name key f hshape value).ended
        (ended_chars hs (.charsBeyond size n rest hsize hn) hrest)
  | .charsCut bytes n past hcut =>
      intro α f hshape name key value s hs hrest
      exact (member_chars io name key f hshape value).ended
        (ended_chars hs (.charsCut bytes n past hcut) hrest)
  | .message inner size n content rest hsize hn hflaw =>
      intro α f hshape name key value s hs hrest
      exact nested_runs hshape name key value hs hsize hn hrest (first_flaw_runs hio hflaw)
  | .messageFlaw inner size n content rest flaw hsize hn hflaw =>
      intro α f hshape name key value s hs hrest
      exact nested_runs hshape name key value hs hsize hn hrest (first_flaw_runs hio hflaw)
  | .messageBeyond fields size n rest hsize hn =>
      intro α f hshape name key value s hs hrest
      obtain ⟨S, m, x, -, hconverts⟩ := member_message io name key f hshape value
      exact hconverts.ended (ended_beyond hs name hsize hn hrest)
  | .messageCut fields bytes n past hcut hwraps =>
      intro α f hshape name key value s hs hrest
      obtain ⟨S, m, x, -, hconverts⟩ := member_message io name key f hshape value
      have hended : Ended (fun p => p.2.2) (unpackSized io name (unpackMessage io m x) s) _ :=
        ended_size_cut hs name hcut hrest (unpack_message_nil io m x)
      rw [if_pos hwraps] at hended
      exact hconverts.ended hended
  | .messageCutBeyond fields bytes n past hcut hwraps =>
      intro α f hshape name key value s hs hrest
      obtain ⟨S, m, x, -, hconverts⟩ := member_message io name key f hshape value
      have hended : Ended (fun p => p.2.2) (unpackSized io name (unpackMessage io m x) s) _ :=
        ended_size_cut hs name hcut hrest (unpack_message_nil io m x)
      rw [if_neg (by omega)] at hended
      exact hconverts.ended hended
  | .scalars bytes =>
      intro α f hshape name key value s hs hrest
      have hfailed : unpackMember io f name key key Shape.scalars.wireType.value value s =
          .error (.fault .illFormed) := member_scalars io name key f hshape value s
      rw [hfailed]
      exact .failed _ .scalars rfl
end

/-! ## What the caller sees -/

/-- The caller sees an exception. -/
def Visible (r : Except Failure γ) : Prop := ∃ e, r = .error (.threw e)

theorem seen_small {msg : Text} (h : msg.length < 2 ^ 32) : seen msg = msg := by
  rw [seen, to_nat_size h, List.take_length]

theorem length_seen_lt (msg : Text) : (seen msg).length < 2 ^ 32 :=
  Nat.lt_of_le_of_lt (List.length_take_le _ _) (UInt32.ofNat msg.length).toNat_lt

/-- A vector is unpacked as the array that it holds. -/
theorem unpack_eq_array (io : Varints) {S : Type} (m : Message S) (msg : Text) (v : S) :
    (unpack io m msg v).map Prod.fst = unpackArray io m msg v := by
  cases msg with
  | nil =>
      cases m with
      | reflect few fields members =>
          have hturns : turns (.new (seen [])) = .ok (1 + 1, .new []) := rfl
          have hrun : unpackMessage io (.reflect few fields members) v (.new (seen [])) =
              .ok ((members.symm (members v), true), .new []) := by
            rw [unpackMessage, bind_of_ok hturns,
              bind_of_ok (loop_end (inside_new (by decide)) rfl 1 _)]
            rfl
          rw [unpackArray, hrun, Equiv.symm_apply_apply]
          rfl
  | cons b msg =>
      have hne : (b :: msg).length ≠ 0 := Nat.succ_ne_zero _
      rw [unpack, if_neg hne, unpackArray, ← seen]
      cases unpackMessage io m v (.new (seen (b :: msg))) with
      | error e => rfl
      | ok p => rfl

/-- What comes back is no exception, and neither is a fault. -/
theorem not_visible_ok (x : γ) : ¬ Visible (.ok x : Except Failure γ) := by
  intro h
  obtain ⟨e, he⟩ := h
  cases he

theorem not_visible_fault (fault : Fault) :
    ¬ Visible (.error (.fault fault) : Except Failure γ) := by
  intro h
  obtain ⟨e, he⟩ := h
  cases he

theorem not_thrown {flaw : Flaw} (h : flaw.thrown = false) :
    ¬ ∃ f ∈ some flaw, f.thrown = true := by
  intro hthrown
  obtain ⟨f, hf, hthrown⟩ := hthrown
  obtain rfl := Option.mem_some.mp hf
  rw [h] at hthrown
  cases hthrown

/-- The flaws that the unpacker throws for, one by one. -/
theorem thrown_iff (flaw : Flaw) :
    flaw.thrown = true ↔ flaw ∈ [Flaw.unknownKey, .wrongType, .messageLength] := by
  cases flaw <;> decide

/-- The flaw of a faulty field. -/
theorem Faulty.thrown_or {io : Varints} {fields : List Shape} {bytes : Text} {flaw : Flaw}
    (h : Faulty io fields bytes flaw) : flaw.thrown = true ∨ flaw = .stringLength := by
  induction h with
  | unknownKey _ _ _ _ _ _ => exact .inl rfl
  | wrongType _ _ _ _ _ _ _ _ => exact .inl rfl
  | stringLength _ _ _ _ _ _ _ _ _ => exact .inr rfl
  | messageLength _ _ _ _ _ _ _ _ _ _ => exact .inl rfl
  | inside _ _ _ _ _ _ _ _ _ _ _ _ _ ih => exact ih
  | behind _ _ _ _ _ _ _ _ _ _ ih => exact ih

variable {io : Varints} (hio : io.Invalidating) {S : Type} {m : Message S} {msg : Text}

include hio

/-- The caller sees an exception where the first flaw is one that the unpacker throws for. -/
theorem first_flaw_visible_iff {flaw : Option Flaw} (h : FirstFlaw io m.shapes (seen msg) flaw)
    (v : S) : Visible (unpackArray io m msg v) ↔ ∃ f ∈ flaw, f.thrown = true := by
  have hrun := message_runs (first_flaw_runs hio h) (length_seen_lt msg) v
  unfold unpackArray
  generalize unpackMessage io m v (.new (seen msg)) = res at hrun
  cases hrun with
  | read x s => exact iff_of_false (not_visible_ok x) nofun
  | threw e flaw hflaw => exact iff_of_true ⟨e, rfl⟩ ⟨flaw, rfl, hflaw⟩
  | dropped x s flaw hflaw => exact iff_of_false (not_visible_ok x) (not_thrown hflaw)
  | failed fault flaw hflaw => exact iff_of_false (not_visible_fault fault) (not_thrown hflaw)

/-- So it is for every buffer. -/
theorem visible_iff (v : S) : Visible (unpackArray io m msg v) ↔
    ∃ flaw ∈ [Flaw.unknownKey, .wrongType, .messageLength],
      FirstFlaw io m.shapes (seen msg) (some flaw) := by
  constructor
  · intro h
    obtain ⟨flaw, hflaw⟩ := exists_first_flaw hio m.shapes (seen msg)
    obtain ⟨f, rfl, hthrown⟩ := (first_flaw_visible_iff hio hflaw v).mp h
    exact ⟨f, (thrown_iff f).mp hthrown, hflaw⟩
  · intro h
    obtain ⟨flaw, hmem, hflaw⟩ := h
    exact (first_flaw_visible_iff hio hflaw v).mpr ⟨flaw, rfl, (thrown_iff flaw).mpr hmem⟩

/-- Of the faulty fields, at any depth, all are seen but strings whose length is beyond the
buffer. -/
theorem faulty_visible_iff (hsmall : msg.length < 2 ^ 32) {flaw : Flaw}
    (h : Faulty io m.shapes msg flaw) (v : S) :
    Visible (unpackArray io m msg v) ↔ flaw ≠ .stringLength := by
  have hfirst : FirstFlaw io m.shapes (seen msg) (some flaw) := by
    rw [seen_small hsmall]
    exact h.first_flaw
  rw [first_flaw_visible_iff hio hfirst v]
  rcases h.thrown_or with hthrown | rfl
  · refine iff_of_true ⟨flaw, rfl, hthrown⟩ ?_
    intro hstring
    rw [hstring] at hthrown
    cases hthrown
  · exact iff_of_false (not_thrown rfl) (fun hne => hne rfl)

/-- A damaged buffer is reported by an exception exactly where its first flaw is an unknown key,
another wire type or the length of a nested message that is beyond the buffer. -/
theorem damage_visible_iff (m : Message S) (msg : Text) (v : S) :
    (Damaged io m msg → Visible (unpackArray io m msg v)) ↔
      (Damaged io m msg → ∃ flaw ∈ [Flaw.unknownKey, .wrongType, .messageLength],
        FirstFlaw io m.shapes (seen msg) (some flaw)) :=
  imp_congr_right fun _ => visible_iff hio v

omit hio

/-! ## A codec -/

/-- The bytes up to the first one that asks for no other. -/
def leading : Text → Option Text
  | [] => none
  | c :: r => if c.toNat < 128 then some [c] else (leading r).map (c :: ·)

/-- A base-128 number; a stream without one is read to its end and one byte further. -/
def checkedUnsigned : Reader UInt32 := fun s =>
  match leading s.rest with
  | some number => .ok (UInt32.ofNat (Base128.value number), s.skip number.length)
  | none => .ok (UInt32.ofNat (Base128.value s.rest), s.skip (s.rest.length + 1))

theorem leading_terminated {number : Text} (h : Base128.Terminated number) (rest : Text) :
    leading (number ++ rest) = some number := by
  induction h with
  | last c hc => exact if_pos hc
  | more c number hc _ ih =>
      show (if c.toNat < 128 then some [c] else (leading (number ++ rest)).map (c :: ·)) = _
      rw [if_neg (by omega), ih]
      rfl

theorem leading_none {bytes : Text} (h : ∀ c ∈ bytes, 128 ≤ c.toNat) : leading bytes = none := by
  induction bytes with
  | nil => rfl
  | cons c bytes ih =>
      obtain ⟨hc, hbytes⟩ := List.forall_mem_cons.mp h
      rw [leading, if_neg (by omega), ih hbytes]
      rfl

theorem reads_checked {number : Text} (h : Base128.Terminated number) :
    Reads checkedUnsigned number (UInt32.ofNat (Base128.value number)) := by
  intro s r hs
  rw [checkedUnsigned, hs, leading_terminated h]

theorem checked_starts_or_ends (bytes : Text) : StartsOrEnds checkedUnsigned bytes := by
  rcases Base128.starts_terminated_or bytes with ⟨number, rest, rfl, hnumber⟩ | hall
  · exact .inl ⟨number, _, rest, rfl, List.length_pos_iff.mp hnumber.length_pos,
      reads_checked hnumber⟩
  · refine .inr ⟨UInt32.ofNat (Base128.value bytes), 1, Nat.one_pos, by decide, ?_⟩
    intro s hs
    rw [checkedUnsigned, hs, leading_none hall]

/-- The base-128 codecs as the assumption has them. -/
def Varints.checked : Varints where
  unsigned n := Base128.code n.toNat
  signed n := Base128.code n.toUInt32.toNat
  getUnsigned := checkedUnsigned
  getSigned := checkedUnsigned >>= fun n => pure n.toInt32
  reads_unsigned n := by
    have hreads := reads_checked (Base128.terminated_code n.toNat)
    rwa [Base128.value_code, UInt32.ofNat_toNat] at hreads
  reads_signed n := by
    have hreads := (reads_checked (Base128.terminated_code n.toUInt32.toNat)).map UInt32.toInt32
    rwa [Base128.value_code, UInt32.ofNat_toNat] at hreads

/-- The assumption carries over to a converted number. -/
theorem StartsOrEnds.map {reader : Reader β} {bytes : Text} (h : StartsOrEnds reader bytes)
    (f : β → γ) : StartsOrEnds (reader >>= fun x => pure (f x)) bytes := by
  rcases h with ⟨number, x, rest, rfl, hne, hreads⟩ | ⟨x, past, hcut⟩
  · exact .inl ⟨number, f x, rest, rfl, hne, hreads.map f⟩
  · refine .inr ⟨f x, past, hcut.behind, hcut.bounded, ?_⟩
    intro s hs
    change (reader s >>= fun p => Except.ok (f p.1, p.2)) = _
    rw [hcut.reads s hs]
    rfl

theorem checked_invalidating : Varints.checked.Invalidating :=
  ⟨checked_starts_or_ends, fun bytes => (checked_starts_or_ends bytes).map _⟩

/-- A number of one byte. -/
theorem is_number_byte {b : Byte} (h : b.toNat < 128) :
    IsNumber Varints.checked.getUnsigned [b] (UInt32.ofNat b.toNat) := by
  refine ⟨List.cons_ne_nil _ _, ?_⟩
  have hreads := reads_checked (.last b h)
  rwa [show Base128.value [b] = b.toNat from Nat.mod_eq_of_lt h] at hreads

/-- A phone that breaks off, behind a name. -/
theorem damage_visible_person :
    Visible (unpackArray .checked person [2, 1, 65, 18, 2, 3] (none, none, [], ())) := by
  have hfaulty : Faulty .checked person.shapes [2, 1, 65, 18, 2, 3] .messageLength := by
    have hname : IsTag .checked person.shapes [2] .chars 2 :=
      ⟨is_number_byte (by decide), rfl, rfl⟩
    have hphone : IsTag .checked person.shapes [18] (.message [.fixed 1]) 18 :=
      ⟨is_number_byte (by decide), rfl, rfl⟩
    exact .behind _ [2] 2 .chars [1, 65] [18, 2, 3] _ hname
      (.chars [1] 1 [65] (is_number_byte (by decide)) rfl)
      (.messageLength _ [18] 18 [.fixed 1] [2] 2 [3] hphone (is_number_byte (by decide))
        (by decide))
  refine (damage_visible_iff checked_invalidating person _ _).mpr ?_ (.inr ⟨_, hfaulty⟩)
  intro _
  exact ⟨.messageLength, by decide, hfaulty.first_flaw⟩

/-- A string that breaks off is lost without an exception. -/
theorem truncated_string_dropped :
    ¬ ∀ io : Varints, io.Invalidating → ∀ (S : Type) (m : Message S) (msg : Text) (v : S),
      Damaged io m msg → Visible (unpackArray io m msg v) := by
  intro h
  have hfaulty : Faulty .checked note.shapes [2, 2, 97] .stringLength :=
    .stringLength _ [2] 2 [2] 2 [97] ⟨is_number_byte (by decide), rfl, rfl⟩
      (is_number_byte (by decide)) (by decide)
  have hentries : entries .checked note ([97, 98], ()) = [[2, 2, 97, 98]] := by
    simp [note, entries, entriesFields, entriesMember, entry, payload, delimited, wireType,
      Varints.checked, tag, WireType.value, Base128.code_small]
  have htruncated : Truncated .checked note ([97, 98], ()) [2, 2, 97] := by
    refine ⟨⟨trivial, trivial⟩, ⟨[98], ?_⟩, ?_⟩
    · rw [← entries_flatten, hentries]
      rfl
    · intro k
      rw [hentries]
      cases k with
      | zero => exact List.cons_ne_nil _ _
      | succ k =>
          rw [List.take_succ_cons, List.take_nil]
          decide
  have hvisible := h .checked checked_invalidating _ note [2, 2, 97] ([], ()) (.inl ⟨_, htruncated⟩)
  exact (faulty_visible_iff checked_invalidating (by decide) hfaulty ([], ())).mp hvisible rfl

end BoostRpc.ProtocolBuffer
