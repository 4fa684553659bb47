import BoostRpc.Json.Delivery
import BoostRpc.Json.StrayBytes

/-!
# The end of a connection

`tcp::connection::read_loop` with what stands around its loop: it sets `m_connected` in front of a
`try` block and takes it back behind it, with the signal `disconnected`. The `catch` clause throws
on what it catches. `end_reported_iff` says when a session that waits for the signal is released.
-/

namespace BoostRpc.Json

/-- The members of a connection that `read_loop` writes. -/
structure Session (σ : Type) where
  /-- `m_connected` -/
  connected : Bool
  /-- How often the loop has emitted `disconnected`. -/
  disconnections : Nat
  /-- What `on_receive` reads and writes. -/
  state : σ

/-- How a call of `read_loop` ends. -/
inductive Departure (σ : Type) where
  | returned (s : Session σ)
  | threw (s : Session σ) (e : Exception)
  /-- A call of `on_receive` never returns. -/
  | diverged
  /-- The depth left the range of `int`, or a call of `on_receive` has no defined result. -/
  | undefined

/-- The members on leaving `read_loop`. -/
def Departure.session? {σ : Type} : Departure σ → Option (Session σ)
  | .returned s => some s
  | .threw s _ => some s
  | .diverged => none
  | .undefined => none

/-- The end of the connection was reported, once. -/
def Reported {σ : Type} (s s' : Session σ) : Prop :=
  s'.connected = false ∧ s'.disconnections = s.disconnections + 1

variable {σ : Type}

/-- What `read_loop` does when its loop ends. `failure` is what the iterator of the socket throws
behind the last byte, if it does not come to its end there. -/
def leave (s : Session σ) (failure : Option Exception) : LoopEnd σ → Departure σ
  -- the catch clause logs what derives from `std::exception`, and everything is thrown on
  | .threw st e => .threw { s with state := st } e
  | .diverged _ => .diverged
  | .undefined => .undefined
  | .finished _ st =>
      match failure with
      | some e => .threw { s with state := st } e
      | none => .returned
          { connected := false, disconnections := s.disconnections + 1, state := st }

/-- The end is reported where nothing was thrown, and otherwise the members are as they were. -/
theorem leave_session (s : Session σ) (failure : Option Exception) (fate : LoopEnd σ) :
    (leave s failure fate).session? =
      match fate, failure with
      | .finished _ st, none => some ⟨false, s.disconnections + 1, st⟩
      | .finished _ st, some _ => some { s with state := st }
      | .threw st _, _ => some { s with state := st }
      | _, _ => none := by
  cases fate with
  | finished framing st => cases failure <;> rfl
  | threw st e => rfl
  | diverged st => rfl
  | undefined => rfl

/-- No frame throws that is reached, where the treatment of all of them throws nothing. -/
theorem treat_throws_iff (deliver : Text → σ → σ × Treated) (st : σ) (fs : List Text) :
    (∀ st' e, treat deliver st fs ≠ (st', .threw e)) ↔
      ∀ before frame after next, fs = before ++ frame :: after →
        treat deliver st before = (next, .returned) → ∀ e, (deliver frame next).2 ≠ .threw e := by
  induction fs generalizing st with
  | nil =>
      refine iff_of_true (by simp [treat]) fun before frame after next hfs => ?_
      simp at hfs
  | cons first fs ih =>
      obtain ⟨⟨st', outcome⟩, hfirst⟩ : ∃ treated, deliver first st = treated := ⟨_, rfl⟩
      constructor
      · intro h before frame after next hfs hbefore e hthrow
        cases before with
        | nil =>
            obtain ⟨rfl, rfl⟩ := List.cons.inj hfs
            obtain rfl : st = next := congrArg Prod.fst hbefore
            rw [hfirst] at hthrow
            obtain rfl : outcome = .threw e := hthrow
            exact h st' e (by rw [treat, hfirst])
        | cons head before =>
            obtain ⟨rfl, rfl⟩ := List.cons.inj hfs
            rw [treat, hfirst] at hbefore
            cases outcome with
            | threw | diverged | undefined => cases hbefore
            | returned =>
                refine (ih st').mp (fun st'' e' htreat => h st'' e' ?_) before frame after next rfl
                  hbefore e hthrow
                rw [treat, hfirst]
                exact htreat
      · intro h st'' e htreat
        rw [treat, hfirst] at htreat
        cases outcome with
        | threw e' =>
            have hnone := h [] first fs st rfl rfl e'
            rw [hfirst] at hnone
            exact hnone rfl
        | diverged | undefined => cases htreat
        | returned =>
            refine (ih st').mpr (fun before frame after next hfs hbefore => ?_) st'' e htreat
            refine h (first :: before) frame after next (by rw [hfs]; rfl) ?_
            rw [treat, hfirst]
            exact hbefore

variable [Platform]

/-- What the loop does with a frame: it reads it and passes the value to `on_receive`. -/
def receiveWith (onReceive : Value → σ → σ × Treated) (frame : Text) (st : σ) : σ × Treated :=
  match read frame with
  | .error e => (st, .threw e)
  | .ok v => onReceive v st

/-- `tcp::connection::read_loop`, where the socket gives the bytes `input`. -/
def tcpReadLoop (onReceive : Value → σ → σ × Treated) (input : Text) (failure : Option Exception)
    (s : Session σ) : Departure σ :=
  leave { s with connected := true } failure
    (readLoop (receiveWith onReceive) .initial s.state input)

/-- Nothing throws in the `try` block. -/
structure NothingThrown (onReceive : Value → σ → σ × Treated) (input : Text)
    (failure : Option Exception) (st : σ) : Prop where
  /-- Every frame that the loop comes to is a JSON text for which `on_receive` throws nothing. -/
  frame : ∀ before frame after next, (FrameState.initial.cut input).1 = before ++ frame :: after →
    treat (receiveWith onReceive) st before = (next, .returned) →
      ∃ v, read frame = .ok v ∧ ∀ e, (onReceive v next).2 ≠ .threw e
  /-- Where the loop comes to the end of the bytes, the socket throws nothing. -/
  stream : ∀ fs behind next, FrameState.initial.cut input = (fs, some behind) →
    treat (receiveWith onReceive) st fs = (next, .returned) → failure = none

/-- A frame throws where it is no JSON text and where `on_receive` throws. -/
theorem receive_throws_iff (onReceive : Value → σ → σ × Treated) (frame : Text) (st : σ) :
    (∀ e, (receiveWith onReceive frame st).2 ≠ .threw e) ↔
      ∃ v, read frame = .ok v ∧ ∀ e, (onReceive v st).2 ≠ .threw e := by
  unfold receiveWith
  cases read frame with
  | error e => simp
  | ok v => simp

/-- For every stream and every behaviour of `on_receive` and of the socket, `read_loop` is left with
the end of the connection reported once exactly where nothing throws in its `try` block. -/
theorem end_reported_iff (onReceive : Value → σ → σ × Treated) (input : Text)
    (failure : Option Exception) (s : Session σ) :
    (∀ s', (tcpReadLoop onReceive input failure s).session? = some s' → Reported s s') ↔
      NothingThrown onReceive input failure s.state := by
  have hframes := treat_throws_iff (receiveWith onReceive) s.state (FrameState.initial.cut input).1
  simp only [receive_throws_iff] at hframes
  rw [tcpReadLoop, read_loop_cut, leave_session]
  constructor
  · intro h
    refine ⟨hframes.mp ?_, ?_⟩
    · intro st' e htreat
      rw [htreat] at h
      exact absurd (h _ rfl).1 (by simp)
    · intro fs behind next hcut htreat
      rw [hcut, htreat] at h
      cases failure with
      | none => rfl
      | some e => exact absurd (h _ rfl).1 (by simp)
  · rintro ⟨hframe, hstream⟩ s' hs'
    have hthrow := hframes.mpr hframe
    obtain ⟨⟨fs, behind⟩, hcut⟩ : ∃ cut, FrameState.initial.cut input = cut := ⟨_, rfl⟩
    obtain ⟨⟨next, outcome⟩, htreat⟩ :
        ∃ treated, treat (receiveWith onReceive) s.state fs = treated := ⟨_, rfl⟩
    rw [hcut] at hs' hthrow
    rw [htreat] at hs'
    cases outcome with
    | threw e => exact absurd htreat (hthrow next e)
    | diverged | undefined => cases hs'
    | returned =>
        cases behind with
        | none => cases hs'
        | some behind =>
            obtain rfl := hstream fs behind next hcut htreat
            exact Option.some.inj hs' ▸ ⟨rfl, rfl⟩

omit [Platform] in
/-- A frame that is no JSON text, and an error of the socket, end the loop without a report. -/
theorem end_unreported :
    letI := Platform.exact false
    tcpReadLoop (fun _ st => (st, .returned)) (str "[\x7d") none ⟨false, 0, ()⟩ =
        .threw ⟨true, 0, ()⟩ (.thrown .jsonParseError) ∧
      tcpReadLoop (fun _ st => (st, .returned)) [] (some .foreign) ⟨false, 0, ()⟩ =
        .threw ⟨true, 0, ()⟩ .foreign :=
  ⟨rfl, rfl⟩

/-! ## Connections -/

/-- `on_receive` of a connection, with the messages that it was called for. -/
def receiveMessage {ι : Type} (alive : ι → Bool) (v : Value) (s : Connection σ ι × List Value) :
    (Connection σ ι × List Value) × Treated :=
  match s.1.onReceive alive v with
  | (c, .returned _) => ((c, s.2 ++ [v]), .returned)
  | (c, .threw e) => ((c, s.2 ++ [v]), .threw e)
  | (c, .diverged) => ((c, s.2 ++ [v]), .diverged)
  | (c, .undefined) => ((c, s.2 ++ [v]), .undefined)

/-- The loop of a connection. -/
theorem receive_with_message {ι : Type} (alive : ι → Bool) :
    receiveWith (receiveMessage (σ := σ) alive) = receiveFrame alive := rfl

/-- A peer that sends deliverable messages and closes the socket releases the session. -/
theorem delivered_reported {ι : Type} (hexact : ExactNumerals) {c : Connection σ ι}
    (alive : ι → Bool) {vs : List Value} (hvs : ∀ v ∈ vs, Plain v ∧ v.isContainer = true)
    (hdeliverable : AllDeliverable alive c vs) (connected : Bool) (disconnections : Nat) :
    ∃ text c', sendAll vs = some text ∧
      tcpReadLoop (receiveMessage alive) text none ⟨connected, disconnections, (c, [])⟩ =
        .returned ⟨false, disconnections + 1, (c', vs)⟩ := by
  obtain ⟨text, c', hsend, hloop⟩ := (delivered_from hexact hvs c alive []).mpr hdeliverable
  refine ⟨text, c', hsend, ?_⟩
  rw [tcpReadLoop, receive_with_message, hloop]
  rfl

end BoostRpc.Json
