import BoostRpc.Json.Connection
import BoostRpc.Json.Nesting
import BoostRpc.Json.RoundTrip

/-!
# Delivery over a byte stream

`tcp::connection`: `send` writes a message as compact JSON and `read_loop` frames the stream of
the peer, reads every frame and passes it to `on_receive`. `delivered_iff` says for which messages
the loop gets what was sent.
-/

namespace BoostRpc.Json

variable {σ ι : Type}

/-- The bytes of `tcp::connection::send`, called on one message after the other; `none` where one
of the calls never returns. -/
def sendAll : List Value → Option Text
  | [] => some []
  | v :: vs => do
      let first ← write v false
      let rest ← sendAll vs
      return first ++ rest

variable [Platform]

/-- What `read_loop` does with a frame, where these promises are still there. The messages that were
passed to `on_receive` are kept. -/
def receiveFrame (alive : ι → Bool) (frame : Text) (s : Connection σ ι × List Value) :
    (Connection σ ι × List Value) × Treated :=
  match read frame with
  | .error e => (s, .threw e)
  | .ok v =>
      match s.1.onReceive alive v with
      | (c, .returned _) => ((c, s.2 ++ [v]), .returned)
      | (c, .threw e) => ((c, s.2 ++ [v]), .threw e)
      | (c, .diverged) => ((c, s.2 ++ [v]), .diverged)
      | (c, .undefined) => ((c, s.2 ++ [v]), .undefined)

/-- The loop of the receiver calls `on_receive` for the messages in their order and ends in its
initial state, when it gets the bytes that the sender writes for them. -/
def Delivers (c : Connection σ ι) (alive : ι → Bool) (vs : List Value) : Prop :=
  ∃ text c', sendAll vs = some text ∧
    readLoop (receiveFrame alive) .initial (c, []) text = .finished .initial (c', vs)

/-- The printer and the loop can count the elements and the nesting of the message, and the message
is an object with the members that `on_receive` reads: the id of a response is a number that is an
`int` behind the conversion, and no entry with a promise that is gone has it. -/
def Deliverable (c : Connection σ ι) (alive : ι → Bool) (v : Value) : Prop :=
  counted v = true ∧ nesting v < 2 ^ 31 ∧ ∃ keys, v = .object keys ∧ ¬ HandlerEscapes c keys ∧
    match Object.find? keys (str "method"), Object.find? keys (str "id") with
    | some _, none => False
    | none, some (.number x) =>
        ∃ id, x.toInt = some id ∧
          ∀ promise, c.pendingReq id = some promise → alive promise = true
    | none, some _ => False
    | _, _ => True

/-- Every message is deliverable to the connection as the messages in front of it leave it. -/
def AllDeliverable (alive : ι → Bool) : Connection σ ι → List Value → Prop
  | _, [] => True
  | c, v :: vs => Deliverable c alive v ∧ AllDeliverable alive (c.onReceive alive v).1 vs

/-- `on_receive` returns for exactly the messages that are deliverable. -/
theorem deliverable_returns {c : Connection σ ι} {alive : ι → Bool} {v : Value}
    (hcount : counted v = true) (hnesting : nesting v < 2 ^ 31) :
    (∃ r, (c.onReceive alive v).2 = .returned r) ↔ Deliverable c alive v := by
  rcases object_or_other v with ⟨keys, rfl⟩ | hother
  · rw [on_receive_object_returns]
    have hdeliverable : Deliverable c alive (.object keys) ↔ ¬ HandlerEscapes c keys ∧
        match keys.find? (str "method"), keys.find? (str "id") with
        | some _, none => False
        | none, some (.number x) =>
            ∃ id, x.toInt = some id ∧
              ∀ promise, c.pendingReq id = some promise → alive promise = true
        | none, some _ => False
        | _, _ => True := by
      constructor
      · intro h
        obtain ⟨-, -, keys', hkeys, h⟩ := h
        obtain rfl := Value.object.inj hkeys
        exact h
      · exact fun h => ⟨hcount, hnesting, keys, rfl, h⟩
    rw [hdeliverable, and_comm]
    refine and_congr_right fun _ => ?_
    unfold Readable
    cases keys.find? (str "method") with
    | some method => cases keys.find? (str "id") <;> exact Iff.rfl
    | none =>
        cases keys.find? (str "id") with
        | none => exact iff_of_true hcount trivial
        | some y =>
            cases y with
            | number x =>
                refine exists_congr fun id => and_congr_right fun _ => ?_
                cases c.pendingReq id with
                | none => exact iff_of_true hcount nofun
                | some promise => simp
            | null | bool | string | object | array => exact Iff.rfl
  · rw [on_receive_other alive hother]
    constructor
    · intro h
      obtain ⟨r, hr⟩ := h
      exact absurd hr nofun
    · intro h
      obtain ⟨-, -, keys, hkeys, -⟩ := h
      exact absurd hkeys (hother keys)

/-- A message that was sent is passed to `on_receive`. -/
theorem read_loop_sent (hexact : ExactNumerals) {v : Value} (hplain : Plain v)
    (hv : v.isContainer = true) (hnesting : nesting v < 2 ^ 31) {text : Text}
    (hsent : write v false = some text) (c : Connection σ ι) (alive : ι → Bool)
    (seen : List Value) (rest : Text) :
    readLoop (receiveFrame alive) .initial (c, seen) (text ++ rest) =
      match c.onReceive alive v with
      | (c, .returned _) => readLoop (receiveFrame alive) .initial (c, seen ++ [v]) rest
      | (c, .threw e) => .threw (c, seen ++ [v]) e
      | (c, .diverged) => .diverged (c, seen ++ [v])
      | (_, .undefined) => .undefined := by
  obtain ⟨n, hn, henclosed⟩ := renders_enclosed (renders_write hplain hsent) hv
  have happ := (enclosed_apparent_iff henclosed).mpr (by omega)
  rw [read_loop_frame henclosed.opens happ, receiveFrame, read_written hexact hplain hsent]
  dsimp only
  split <;> rename_i heq <;> split at heq <;> simp_all

omit [Platform] in
theorem send_all_cons {v : Value} {vs : List Value} {text : Text}
    (h : sendAll (v :: vs) = some text) : ∃ first rest, write v false = some first ∧
      sendAll vs = some rest ∧ text = first ++ rest := by
  simp only [sendAll, Option.bind_eq_bind, Option.bind_eq_some_iff] at h
  obtain ⟨first, hfirst, rest, hrest, heq⟩ := h
  exact ⟨first, rest, hfirst, hrest, (Option.some.inj heq).symm⟩

/-- A loop that comes to the end of the stream has got its call of `on_receive` back. -/
theorem received_of_finished {c : Connection σ ι} {alive : ι → Bool} {v : Value}
    {seen seen' : List Value} {rest : Text} {framing : FrameState} {c' : Connection σ ι}
    (h : (match c.onReceive alive v with
      | (c, .returned _) => readLoop (receiveFrame alive) .initial (c, seen ++ [v]) rest
      | (c, .threw e) => .threw (c, seen ++ [v]) e
      | (c, .diverged) => .diverged (c, seen ++ [v])
      | (_, .undefined) => .undefined) = .finished framing (c', seen')) :
    ∃ r, (c.onReceive alive v).2 = .returned r ∧
      readLoop (receiveFrame alive) .initial ((c.onReceive alive v).1, seen ++ [v]) rest =
        .finished framing (c', seen') := by
  generalize c.onReceive alive v = received at h ⊢
  obtain ⟨c'', outcome⟩ := received
  cases outcome with
  | returned r => exact ⟨r, rfl, h⟩
  | threw | diverged | undefined => exact absurd h nofun

/-- The loop gets exactly the deliverable messages, whatever it has got before. -/
theorem delivered_from (hexact : ExactNumerals) {vs : List Value}
    (hvs : ∀ v ∈ vs, Plain v ∧ v.isContainer = true) (c : Connection σ ι) (alive : ι → Bool)
    (seen : List Value) :
    (∃ text c', sendAll vs = some text ∧
      readLoop (receiveFrame alive) .initial (c, seen) text =
        .finished .initial (c', seen ++ vs)) ↔ AllDeliverable alive c vs := by
  induction vs generalizing c seen with
  | nil =>
      refine ⟨fun _ => trivial, fun _ => ⟨[], c, rfl, ?_⟩⟩
      rw [List.append_nil]
      rfl
  | cons v vs ih =>
      obtain ⟨hplain, hv⟩ := hvs v List.mem_cons_self
      have hrest := ih (fun w hw => hvs w (List.mem_cons_of_mem v hw)) (c.onReceive alive v).1
        (seen ++ [v])
      rw [List.append_assoc, List.singleton_append] at hrest
      constructor
      · intro h
        obtain ⟨text, c', hsend, hloop⟩ := h
        obtain ⟨first, rest, hfirst, hothers, rfl⟩ := send_all_cons hsend
        have hcount := (write_returns_iff v false).mp ⟨first, hfirst⟩
        have hnesting : nesting v < 2 ^ 31 := by
          by_contra hdeep
          obtain ⟨n, hn, henclosed⟩ := renders_enclosed (renders_write hplain hfirst) hv
          rw [read_loop_overflow henclosed (by omega)] at hloop
          exact absurd hloop nofun
        rw [read_loop_sent hexact hplain hv hnesting hfirst] at hloop
        obtain ⟨r, hr, hloop⟩ := received_of_finished hloop
        exact ⟨(deliverable_returns hcount hnesting).mp ⟨r, hr⟩,
          hrest.mp ⟨rest, c', hothers, hloop⟩⟩
      · intro h
        obtain ⟨hdeliverable, hall⟩ := h
        obtain ⟨rest, c', hothers, hloop⟩ := hrest.mpr hall
        obtain ⟨r, hr⟩ := (deliverable_returns hdeliverable.1 hdeliverable.2.1).mpr hdeliverable
        obtain ⟨first, hfirst⟩ := (write_returns_iff v false).mpr hdeliverable.1
        refine ⟨first ++ rest, c', by simp [sendAll, hfirst, hothers], ?_⟩
        rw [read_loop_sent hexact hplain hv hdeliverable.2.1 hfirst]
        generalize c.onReceive alive v = received at hr hloop
        obtain ⟨c'', outcome⟩ := received
        subst hr
        exact hloop

/-- The receiver gets what was sent, message by message, and is ready for the next, exactly where
every message is deliverable. -/
theorem delivered_iff (hexact : ExactNumerals) (c : Connection σ ι) (alive : ι → Bool)
    {vs : List Value} (hvs : ∀ v ∈ vs, Plain v ∧ v.isContainer = true) :
    Delivers c alive vs ↔ AllDeliverable alive c vs :=
  delivered_from hexact hvs c alive []

omit [Platform] in
/-- A request for a method that the receiver does not have, and the response to its own call. -/
theorem delivered_messages :
    letI := Platform.exact true
    Delivers (⟨fun _ => none, Function.update (fun _ => none) 1 (some ()), 1, ()⟩ :
        Connection Unit Unit) (fun _ => true)
      [.object [(str "method", .string (str "f")), (str "id", .int 1)],
        .object [(str "id", .int 1)]] := by
  let _ := Platform.exact true
  have hone : Micros (.finite (1 : Int)) := ⟨10 ^ 6, by norm_num⟩
  have plain : ∀ text : Text,
      text.all (fun c => isAscii c && c != ch '"' && c != ch '\\') = true → PlainText text := by
    intro text h c hc
    have hbyte := List.all_eq_true.mp h c hc
    simpa [and_assoc] using hbyte
  have hid : PlainText (str "id") := plain _ rfl
  have hplain : ∀ v ∈ [Value.object [(str "method", .string (str "f")), (str "id", .int 1)],
      .object [(str "id", .int 1)]], Plain v ∧ v.isContainer = true := by
    intro v hv
    rcases List.mem_pair.mp hv with rfl | rfl
    · exact ⟨⟨plain _ rfl, plain _ rfl, hid, hone, trivial⟩, rfl⟩
    · exact ⟨⟨hid, hone, trivial⟩, rfl⟩
  have hescapes : ∀ (c : Connection Unit Unit) (keys : Object), c.methods = (fun _ => none) →
      ¬ HandlerEscapes c keys := by
    rintro c keys hc ⟨method, handler, params, -, hhandler, -⟩
    rw [hc] at hhandler
    cases hhandler
  refine (delivered_iff (fun k => rfl) _ _ hplain).mpr ⟨?_, ?_, trivial⟩
  · exact ⟨rfl, by decide, _, rfl, hescapes _ _ rfl, trivial⟩
  · exact ⟨rfl, by decide, _, rfl, hescapes _ _ rfl, 1, rfl, fun _ _ => rfl⟩

omit [Platform] in
/-- An array ends the loop, and the message behind it is lost. -/
theorem array_not_delivered :
    ¬ ∀ (vs : List Value), (∀ v ∈ vs, Plain v ∧ v.isContainer = true) →
      @Delivers Unit Unit (.exact true) (.fresh (fun _ => none) ()) (fun _ => true) vs := by
  let _ := Platform.exact true
  intro h
  have hvs : ∀ v ∈ [Value.array [], .object []], Plain v ∧ v.isContainer = true := by
    intro v hv
    rcases List.mem_pair.mp hv with rfl | rfl
    · exact ⟨trivial, rfl⟩
    · exact ⟨trivial, rfl⟩
  have hdelivers := h _ hvs
  obtain ⟨⟨-, -, keys, hkeys, -⟩, -⟩ :=
    (delivered_from (fun k => rfl) hvs _ (fun _ => true) []).mp hdelivers
  exact absurd hkeys nofun

end BoostRpc.Json
