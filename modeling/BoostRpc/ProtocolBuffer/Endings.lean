import BoostRpc.ProtocolBuffer.Evolution
import BoostRpc.ProtocolBuffer.Flaws

/-!
# The ends of fields

How the unpacker leaves the bytes of one field. It has exceptions, the member `error` of its visitor
and the validity of the stream; `Ended` says which of them tells that a field has not been read.
The lemmas about members trace the overloads for all types of fields back to the bytes that one of
them takes.
-/

namespace BoostRpc.ProtocolBuffer

open Raw

variable {α β γ : Type}

/-- The flaws that the unpacker throws for. -/
def Flaw.thrown : Flaw → Bool
  | .unknownKey => true
  | .wrongType => true
  | .messageLength => true
  | .stringLength => false
  | .cut => false
  | .scalars => false

/-! ## Streams behind their end -/

/-- The cursor is that many bytes behind the end. -/
structure Outside (s : Datastream) (past : Nat) : Prop where
  behind : 0 < past
  bounded : past < 2 ^ 32
  pos : s.pos = s.data.length + past

theorem Outside.remaining {s : Datastream} {past : Nat} (h : Outside s past) :
    s.remaining.toNat = 2 ^ 32 - past := by
  have hbehind := h.behind
  have hbounded := h.bounded
  have hpos := h.pos
  rw [Datastream.remaining, Datastream.left, UInt32.ofInt, UInt32.toNat_ofNat']
  omega

theorem Outside.invalid {s : Datastream} {past : Nat} (h : Outside s past) : s.valid = false := by
  have hbehind := h.behind
  have hpos := h.pos
  refine decide_eq_false ?_
  omega

theorem Outside.rest {s : Datastream} {past : Nat} (h : Outside s past) : s.rest = [] := by
  have hpos := h.pos
  refine List.drop_eq_nil_iff.mpr ?_
  omega

/-- A stream that ends inside a number is left behind its end. -/
theorem Cut.outside {reader : Reader β} {bytes : Text} {x : β} {past : Nat}
    (h : Cut reader bytes x past) {s : Datastream} (hs : Inside s) (hrest : s.rest = bytes) :
    Outside (s.skip (bytes.length + past)) past := by
  have hinside := hs.inside
  have hlength := congrArg List.length hrest
  rw [Datastream.rest, List.length_drop] at hlength
  refine ⟨h.behind, h.bounded, ?_⟩
  show s.pos + (bytes.length + past) = s.data.length + past
  omega

/-- From behind the end nothing can be taken but no bytes. -/
theorem Outside.peek_nil {s : Datastream} {past : Nat} (h : Outside s past) :
    peek 0 s = .ok ([], s) := by
  have hpos := h.pos
  rw [peek, if_pos (.inl rfl), List.drop_eq_nil_iff.mpr (by omega), List.take_nil]

theorem Outside.peek_some {s : Datastream} {past : Nat} (h : Outside s past) {n : UInt32}
    (hn : n ≠ 0) : peek n s = .error (.fault .outOfBounds) := by
  have hbehind := h.behind
  have hpos := h.pos
  rw [peek, if_neg]
  rintro (hzero | hle)
  · exact hn hzero
  · omega

theorem extract_number {reader : Reader β} {bytes : Text} {x : β} (h : IsNumber reader bytes x)
    {s : Datastream} {rest : Text} (hrest : s.rest = bytes ++ rest) :
    extract reader s = .ok (x, s.skip bytes.length) := by
  rw [extract, h.2 s rest hrest]

theorem extract_cut {reader : Reader β} {bytes : Text} {x : β} {past : Nat}
    (h : Cut reader bytes x past) {s : Datastream} (hrest : s.rest = bytes) :
    extract reader s = .ok (x, s.skip (bytes.length + past)) := by
  rw [extract, h.reads s hrest]

/-! ## Results -/

/-- How code that reads a field ends; `err` is the member `error` in what it returns. Where it
neither throws nor fails, it sets `error` or leaves the stream behind its end. -/
inductive Ended (err : γ → Bool) : Except Failure (γ × Datastream) → Outcome → Prop where
  | passes (x s rest) :
      err x = false → Inside s → s.rest = rest → Ended err (.ok (x, s)) (.passes rest)
  | threw (e flaw) : flaw.thrown = true → Ended err (.error (.threw e)) (.stops flaw)
  | flagged (x s flaw) :
      flaw.thrown = false → err x = true → Ended err (.ok (x, s)) (.stops flaw)
  | outside (x s past flaw) :
      flaw.thrown = false → err x = false → Outside s past → Ended err (.ok (x, s)) (.stops flaw)
  | failed (fault flaw) :
      flaw.thrown = false → Ended err (.error (.fault fault)) (.stops flaw)

/-- How the loop of a message ends. -/
inductive LoopEnded : Except Failure ((β × Bool) × Datastream) → Option Flaw → Prop where
  | read (x s) : LoopEnded (.ok ((x, true), s)) none
  | threw (e flaw) : flaw.thrown = true → LoopEnded (.error (.threw e)) (some flaw)
  | dropped (x s flaw) : flaw.thrown = false → LoopEnded (.ok ((x, false), s)) (some flaw)
  | failed (fault flaw) : flaw.thrown = false → LoopEnded (.error (.fault fault)) (some flaw)

/-- The value that is returned does not matter, only its `error`. -/
theorem Ended.map {err : γ → Bool} {err' : β → Bool} {body : Unpack γ} {s : Datastream}
    {outcome : Outcome} (h : Ended err (body s) outcome) (g : γ → β)
    (hg : ∀ x, err' (g x) = err x) :
    Ended err' ((body >>= fun x => Pure.pure (g x)) s) outcome := by
  cases hbody : body s with
  | error e =>
      rw [bind_of_error hbody]
      rw [hbody] at h
      cases h with
      | threw e flaw hflaw => exact .threw e flaw hflaw
      | failed fault flaw hflaw => exact .failed fault flaw hflaw
  | ok p =>
      rw [bind_of_ok hbody]
      rw [hbody] at h
      cases h with
      | passes x s rest herr hs hrest => exact .passes _ _ rest ((hg x).trans herr) hs hrest
      | flagged x s flaw hflaw herr => exact .flagged _ _ flaw hflaw ((hg x).trans herr)
      | outside x s past flaw hflaw herr hs =>
          exact .outside _ _ past flaw hflaw ((hg x).trans herr) hs

/-! ## Bytes of one field -/

/-- `is >> value` of a fundamental type and the `error` behind it. -/
def readFixed (t : Fundamental α) (value : α) : Unpack (α × Bool) := do
  let (_, bytes) ← extract (Datastream.read t.size (t.toBytes value))
  return (t.ofBytes bytes, !(← valid))

section Bytes

variable {io : Varints} {s : Datastream} (hs : Inside s)

include hs

/-- The stream behind bytes that were there. -/
theorem Inside.behind {bytes rest : Text} (hrest : s.rest = bytes ++ rest) :
    Inside (s.skip bytes.length) ∧ (s.skip bytes.length).rest = rest :=
  ⟨hs.skip hrest, Datastream.rest_skip_append hrest⟩

/-- Bytes that are taken as a field are passed. -/
theorem ended_takes {err : γ → Bool} {body : Unpack γ} {bytes rest : Text} {x : γ}
    (h : Takes body bytes x) (herr : err x = false) (hrest : s.rest = bytes ++ rest) :
    Ended err (body s) (.passes rest) := by
  rw [h s rest hs hrest]
  exact .passes _ _ rest herr (hs.skip hrest) (Datastream.rest_skip_append hrest)

theorem ended_number {reader : Reader β} {bytes rest : Text} {x : β}
    (h : IsNumber reader bytes x) (hrest : s.rest = bytes ++ rest) :
    Ended (fun _ => false) (extract reader s) (.passes rest) :=
  ended_takes hs (takes_extract h.2) rfl hrest

theorem ended_cut {reader : Reader β} {bytes : Text} {x : β} {past : Nat}
    (h : Cut reader bytes x past) (hrest : s.rest = bytes) :
    Ended (fun _ => false) (extract reader s) (.stops .cut) := by
  rw [extract_cut h hrest]
  exact .outside _ _ past .cut rfl rfl (h.outside hs hrest)

variable (io) in
/-- A scalar that is there, or that takes nothing. -/
theorem ended_fixed (t : Fundamental α) (value : α) {bytes : Text} {outcome : Outcome}
    (h : Behind io (.fixed t.size) bytes outcome) (hrest : s.rest = bytes) :
    Ended Prod.snd (readFixed t value s) outcome := by
  cases h with
  | fixed _ bytes rest hsize =>
      have hread := takes_extract (reads_read t.size_pos (t.toBytes value) ⟨bytes, hsize⟩)
      have htakes : Takes (readFixed t value) bytes (t.ofBytes ⟨bytes, hsize⟩, false) :=
        hread.andThen (takes_valid.andThen (Takes.pure _))
      exact ended_takes hs htakes rfl hrest
  | short _ _ hshort =>
      -- nothing moves, so that the stream stays valid
      have hrefused : ¬ t.size.toInt32.toInt ≤ s.left := by
        have hinside := hs.inside
        have hleft := congrArg List.length hrest
        rw [Datastream.rest, List.length_drop] at hleft
        have hsize : t.size.toInt32.toInt = t.size.toNat := by
          rcases t.sized with h | h | h | h <;> rw [h] <;> rfl
        rw [hsize, Datastream.left]
        omega
      have hread : extract (Datastream.read t.size (t.toBytes value)) s =
          .ok ((false, t.toBytes value), s) := by
        rw [extract, read_refused _ hrefused]
      have hvalid : valid s = .ok (true, s) := by
        rw [valid_eq, Datastream.valid, decide_eq_true hs.inside]
      have hrun : readFixed t value s = .ok ((t.ofBytes (t.toBytes value), false), s) :=
        (bind_of_ok hread).trans (bind_of_ok hvalid)
      rw [hrun]
      exact .passes _ _ bytes rfl hs hrest

/-- The length of what is left tells what is beyond. -/
theorem not_le_left {n : UInt32} (h : s.rest.length < n.toNat) :
    ¬ n ≤ UInt32.ofNat s.rest.length := by
  rw [UInt32.le_iff_toNat_le, to_nat_rest hs]
  omega

theorem le_left {n : UInt32} (h : n.toNat ≤ s.rest.length) : n ≤ UInt32.ofNat s.rest.length := by
  rw [UInt32.le_iff_toNat_le, to_nat_rest hs]
  exact h

/-- A string, whose `error` says whether it is there. -/
theorem ended_chars {bytes : Text} {outcome : Outcome} (h : Behind io .chars bytes outcome)
    (hrest : s.rest = bytes) : Ended Option.isNone (unpackChars io s) outcome := by
  cases h with
  | chars size n content rest hsize hn =>
      rw [← List.append_assoc] at hrest
      exact ended_takes hs (takes_chars_behind hsize.2 hn) rfl hrest
  | charsBeyond size n rest hsize hn =>
      obtain ⟨hinside, hbehind⟩ := hs.behind hrest
      have hrun : unpackChars io s = .ok (none, s.skip size.length) := by
        rw [unpackChars, bind_of_ok (extract_number hsize hrest), bind_of_ok (remaining_eq hinside),
          if_neg (not_le_left hinside (by rw [hbehind]; exact hn))]
        rfl
      rw [hrun]
      exact .flagged _ _ .stringLength rfl rfl
  | charsCut _ n past hcut =>
      have houtside := hcut.outside hs hrest
      have hremaining : remaining (s.skip (bytes.length + past)) = .ok (_, _) := rfl
      rw [unpackChars, bind_of_ok (extract_cut hcut hrest), bind_of_ok hremaining]
      split
      · by_cases hn : n = 0
        · subst hn
          rw [bind_of_ok houtside.peek_nil]
          exact .outside (some []) _ past .cut rfl rfl houtside
        · -- the string would be taken from behind the end
          rw [bind_of_error (houtside.peek_some hn)]
          exact .failed _ .cut rfl
      · exact .flagged _ _ .cut rfl rfl

variable (name : Text) {body : Unpack (β × Bool)}

/-- A nested message ends as its own loop does. -/
theorem ended_content {size content rest : Text} {n : UInt32}
    (hsize : IsNumber io.getUnsigned size n) (hn : n.toNat = content.length)
    (hrest : s.rest = size ++ (content ++ rest)) {flaw : Option Flaw}
    (hbody : LoopEnded (body (.new content)) flaw) :
    Ended (fun p => p.2.2) (unpackSized io name body s) (flaw.elim (.passes rest) .stops) := by
  obtain ⟨hinside, hbehind⟩ := hs.behind hrest
  have hle := le_left hinside (n := n) (by rw [hbehind, List.length_append]; omega)
  have hloop : unpackSized io name body s =
      (nested n body >>= fun p =>
        if !p.2 then return (p.1, false, true)
        else do
          skip n
          return (p.1, true, !(← valid))) (s.skip size.length) := by
    rw [unpackSized, bind_of_ok (extract_number hsize hrest), bind_of_ok (remaining_eq hinside),
      if_pos hle]
  generalize hrun : body (.new content) = res at hbody
  cases hbody with
  | read x s' =>
      rw [← List.append_assoc] at hrest
      exact ended_takes hs (takes_sized_behind name hsize.2 hn hrun) rfl hrest
  | threw e flaw hflaw =>
      rw [hloop, bind_of_error (nested_of_error hinside hbehind hn hrun)]
      exact .threw e flaw hflaw
  | failed fault flaw hflaw =>
      rw [hloop, bind_of_error (nested_of_error hinside hbehind hn hrun)]
      exact .failed fault flaw hflaw
  | dropped x s' flaw hflaw =>
      rw [hloop, bind_of_ok (nested_of_ok hinside hbehind hn hrun)]
      exact .flagged _ _ flaw hflaw rfl

/-- The length of a nested message beyond the buffer. -/
theorem ended_beyond {size rest : Text} {n : UInt32} (hsize : IsNumber io.getUnsigned size n)
    (hn : rest.length < n.toNat) (hrest : s.rest = size ++ rest) :
    Ended (fun p => p.2.2) (unpackSized io name body s) (.stops .messageLength) := by
  obtain ⟨hinside, hbehind⟩ := hs.behind hrest
  rw [unpackSized, bind_of_ok (extract_number hsize hrest), bind_of_ok (remaining_eq hinside),
    if_neg (not_le_left hinside (by rw [hbehind]; exact hn))]
  exact .threw _ .messageLength rfl

/-- A length that is cut counts against what `remaining` wraps to. -/
theorem ended_size_cut {bytes : Text} {n : UInt32} {past : Nat}
    (hcut : Cut io.getUnsigned bytes n past) (hrest : s.rest = bytes) {x : β} {empty : Datastream}
    (hempty : body (.new []) = .ok ((x, true), empty)) :
    Ended (fun p => p.2.2) (unpackSized io name body s)
      (.stops (if n.toNat + past ≤ 2 ^ 32 then .cut else .messageLength)) := by
  have houtside := hcut.outside hs hrest
  have hwraps := houtside.remaining
  have hremaining : remaining (s.skip (bytes.length + past)) =
      .ok ((s.skip (bytes.length + past)).remaining, s.skip (bytes.length + past)) := rfl
  have hbehind := hcut.behind
  have hbounded := hcut.bounded
  rw [unpackSized, bind_of_ok (extract_cut hcut hrest), bind_of_ok hremaining]
  by_cases hn : n.toNat + past ≤ 2 ^ 32
  · have hle : n ≤ (s.skip (bytes.length + past)).remaining := by
      rw [UInt32.le_iff_toNat_le]
      omega
    rw [if_pos hle, if_pos hn]
    by_cases hzero : n = 0
    · -- no bytes are a message, behind which the stream is not valid
      subst hzero
      have hnested : nested 0 body (s.skip (bytes.length + past)) =
          .ok ((x, true), s.skip (bytes.length + past)) := by
        rw [nested, bind_of_ok houtside.peek_nil, hempty]
        rfl
      rw [bind_of_ok hnested]
      refine .flagged _ _ .cut rfl ?_
      exact congrArg Bool.not houtside.invalid
    · have hnested : nested n body (s.skip (bytes.length + past)) =
          .error (.fault .outOfBounds) := bind_of_error (houtside.peek_some hzero)
      rw [bind_of_error hnested]
      exact .failed _ .cut rfl
  · have hlt : ¬ n ≤ (s.skip (bytes.length + past)).remaining := by
      rw [UInt32.le_iff_toNat_le]
      omega
    rw [if_neg hlt, if_neg hn]
    exact .threw _ .messageLength rfl

end Bytes

/-! ## Members -/

/-- The code is other code whose result is converted, with the same `error`. -/
def Converts (err : γ → Bool) (core : Unpack γ) (body : Unpack (α × Bool)) : Prop :=
  ∃ g : γ → α × Bool, (∀ x, (g x).2 = err x) ∧ body = core >>= fun x => Pure.pure (g x)

theorem Converts.ended {err : γ → Bool} {core : Unpack γ} {body : Unpack (α × Bool)}
    (h : Converts err core body) {s : Datastream} {outcome : Outcome}
    (hcore : Ended err (core s) outcome) : Ended Prod.snd (body s) outcome := by
  obtain ⟨g, hg, rfl⟩ := h
  exact hcore.map g hg

theorem Converts.within {err : γ → Bool} {core : Unpack γ} {body : Unpack (α × Bool)}
    (h : Converts err core body) (put : α → β) : Converts err core (within put body) := by
  obtain ⟨g, hg, rfl⟩ := h
  refine ⟨fun x => (put (g x).1, (g x).2), hg, ?_⟩
  rw [ProtocolBuffer.within, bind_assoc]
  rfl

section Members

variable (io : Varints) (name : Text) (key : UInt32)

/-- The member is refused for another wire type. -/
theorem member_refuses (f : Field α) {type : UInt32} (h : type ≠ f.shape.wireType.value)
    (value : α) (s : Datastream) :
    unpackMember io f name key key type value s = .error (.threw (.keyTypeMismatch name)) := by
  have hcheck : checkKey name key key type f.shape.wireType s =
      .error (.threw (.keyTypeMismatch name)) := by
    rw [checkKey, if_pos (.inr h)]
    rfl
  have helement : ∀ {α : Type} (t : Element α) (value : α),
      checkKey name key key type t.shape.wireType s = .error (.threw (.keyTypeMismatch name)) →
      unpackElement io t name key key type value s = .error (.threw (.keyTypeMismatch name)) := by
    intro α t value hcheck
    cases t with
    | fundamental t => exact bind_of_error hcheck
    | unsignedInt => exact bind_of_error hcheck
    | signedInt => exact bind_of_error hcheck
    | string => exact bind_of_error hcheck
    | message m => exact bind_of_error hcheck
  cases f with
  | plain t => exact helement t value hcheck
  | optional t => exact bind_of_error (helement t _ hcheck)
  | required t => exact bind_of_error (helement t _ hcheck)
  | container t =>
      cases t with
      | fundamental t => exact bind_of_error hcheck
      | unsignedInt => exact bind_of_error hcheck
      | signedInt => exact bind_of_error hcheck
      | string => exact bind_of_error hcheck
      | message m => exact bind_of_error hcheck

/-- A member is a value of its element, in what it is a part of, or one more element. -/
theorem member_cases (f : Field α) (value : α) :
    (∃ (β : Type) (t : Element β) (x : β) (put : β → α), t.shape = f.shape ∧ ∀ type,
      unpackMember io f name key key type value =
        within put (unpackElement io t name key key type x)) ∨
      ∃ (β : Type) (t : Element β) (xs : List β) (put : List β → α), t.shape.repeated = f.shape ∧
        ∀ type, unpackMember io f name key key type value =
          within put (unpackBack io t name key key type xs) := by
  cases f with
  | plain t => exact .inl ⟨_, t, value, id, rfl, fun _ => (within_self _).symm⟩
  | optional t => exact .inl ⟨_, t, _, some, rfl, fun _ => rfl⟩
  | required t => exact .inl ⟨_, t, _, some, rfl, fun _ => rfl⟩
  | container t => exact .inr ⟨_, t, value, id, rfl, fun _ => (within_self _).symm⟩

theorem member_fixed (f : Field α) {size : UInt32} (h : f.shape = .fixed size) (value : α) :
    ∃ (β : Type) (t : Fundamental β) (x : β), t.size = size ∧ Converts Prod.snd (readFixed t x)
      (unpackMember io f name key key (getWireType size).value value) := by
  rcases member_cases io name key f value with ⟨β, t, x, put, hshape, hrun⟩ |
    ⟨β, t, xs, put, hshape, hrun⟩
  · rw [h] at hshape
    cases t with
    | fundamental t =>
        cases hshape
        refine ⟨β, t, x, rfl, ?_⟩
        rw [hrun, unpackElement, check_key_same, pure_bind]
        exact Converts.within ⟨id, fun _ => rfl, (bind_pure _).symm⟩ put
    | unsignedInt => cases hshape
    | signedInt => cases hshape
    | string => cases hshape
    | message m => cases hshape
  · rw [h] at hshape
    cases t <;> cases hshape

theorem member_unsigned (f : Field α) (h : f.shape = .unsigned) (value : α) :
    Converts (fun _ => false) (extract io.getUnsigned)
      (unpackMember io f name key key WireType.varint.value value) := by
  rcases member_cases io name key f value with ⟨β, t, x, put, hshape, hrun⟩ |
    ⟨β, t, xs, put, hshape, hrun⟩
  · rw [h] at hshape
    cases t with
    | unsignedInt =>
        rw [hrun, unpackElement, check_key_same, pure_bind]
        exact Converts.within ⟨fun x => (x, false), fun _ => rfl, rfl⟩ put
    | fundamental t => cases hshape
    | signedInt => cases hshape
    | string => cases hshape
    | message m => cases hshape
  · rw [h] at hshape
    cases t <;> cases hshape

theorem member_signed (f : Field α) (h : f.shape = .signed) (value : α) :
    Converts (fun _ => false) (extract io.getSigned)
      (unpackMember io f name key key WireType.varint.value value) := by
  rcases member_cases io name key f value with ⟨β, t, x, put, hshape, hrun⟩ |
    ⟨β, t, xs, put, hshape, hrun⟩
  · rw [h] at hshape
    cases t with
    | signedInt =>
        rw [hrun, unpackElement, check_key_same, pure_bind]
        exact Converts.within ⟨fun x => (x, false), fun _ => rfl, rfl⟩ put
    | fundamental t => cases hshape
    | unsignedInt => cases hshape
    | string => cases hshape
    | message m => cases hshape
  · rw [h] at hshape
    cases t <;> cases hshape

theorem member_chars (f : Field α) (h : f.shape = .chars) (value : α) :
    Converts Option.isNone (unpackChars io)
      (unpackMember io f name key key WireType.lengthDelimited.value value) := by
  rcases member_cases io name key f value with ⟨β, t, x, put, hshape, hrun⟩ |
    ⟨β, t, xs, put, hshape, hrun⟩
  · rw [h] at hshape
    cases t with
    | string =>
        rw [hrun, unpackElement, check_key_same, pure_bind]
        refine Converts.within
          ⟨fun str : Option Text => (str.getD x, str.isNone), fun _ => rfl,
            bind_congr fun str => ?_⟩ put
        cases str <;> rfl
    | fundamental t => cases hshape
    | unsignedInt => cases hshape
    | signedInt => cases hshape
    | message m => cases hshape
  · rw [h] at hshape
    cases t with
    | string =>
        rw [hrun, unpackBack, check_key_same, pure_bind]
        refine Converts.within
          ⟨fun str : Option Text => (str.elim xs fun str => xs ++ [str], str.isNone),
            fun _ => rfl, bind_congr fun str => ?_⟩ put
        cases str <;> rfl
    | fundamental t => cases hshape
    | unsignedInt => cases hshape
    | signedInt => cases hshape
    | message m => cases hshape

theorem member_message (f : Field α) {fields : List Shape} (h : f.shape = .message fields)
    (value : α) :
    ∃ (S : Type) (m : Message S) (x : S), m.shapes = fields ∧
      Converts (fun p => p.2.2) (unpackSized io name (unpackMessage io m x))
        (unpackMember io f name key key WireType.lengthDelimited.value value) := by
  rcases member_cases io name key f value with ⟨β, t, x, put, hshape, hrun⟩ |
    ⟨β, t, xs, put, hshape, hrun⟩
  · rw [h] at hshape
    cases t with
    | message m =>
        cases hshape
        refine ⟨β, m, x, rfl, ?_⟩
        rw [hrun, unpackElement, check_key_same, pure_bind]
        exact Converts.within ⟨fun p : β × Bool × Bool => (p.1, p.2.2), fun _ => rfl, rfl⟩ put
    | fundamental t => cases hshape
    | unsignedInt => cases hshape
    | signedInt => cases hshape
    | string => cases hshape
  · rw [h] at hshape
    cases t with
    | message m =>
        cases hshape
        refine ⟨β, m, constructMessage 0 m, rfl, ?_⟩
        rw [hrun, unpackBack, check_key_same, pure_bind]
        exact Converts.within ⟨fun p : β × Bool × Bool =>
          (if p.2.1 then xs ++ [p.1] else xs, p.2.2), fun _ => rfl, rfl⟩ put
    | fundamental t => cases hshape
    | unsignedInt => cases hshape
    | signedInt => cases hshape
    | string => cases hshape

theorem member_scalars (f : Field α) (h : f.shape = .scalars) (value : α) (s : Datastream) :
    unpackMember io f name key key WireType.lengthDelimited.value value s =
      .error (.fault .illFormed) := by
  rcases member_cases io name key f value with ⟨β, t, x, put, hshape, hrun⟩ |
    ⟨β, t, xs, put, hshape, hrun⟩
  · rw [h] at hshape
    cases t <;> cases hshape
  · rw [h] at hshape
    rw [hrun]
    refine bind_of_error ?_
    cases t with
    | fundamental t => rw [unpackBack, check_key_same, pure_bind]; rfl
    | unsignedInt => rw [unpackBack, check_key_same, pure_bind]; rfl
    | signedInt => rw [unpackBack, check_key_same, pure_bind]; rfl
    | string => cases hshape
    | message m => cases hshape

end Members

end BoostRpc.ProtocolBuffer
