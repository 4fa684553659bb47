import BoostRpc.Json.Delivery
import BoostRpc.Json.DistinctKeys
import BoostRpc.Json.Sessions

/-!
# Sessions over byte streams

The sessions of `BoostRpc.Json.Sessions` as they run over `tcp::connection`: `send` writes the text
of a message to a stream of bytes, and `read_loop` takes one byte after the other, with what it has
found of the current message in its local variables. Between any two bytes the other parties go on.

`Pipe.Carries` is the invariant of one direction: it tells the messages that are still on their way
from the variables of the loop and the bytes in front of it. With it the sessions over byte streams
simulate those that exchange messages, so that the clients still see an object
(`wired_linearizable`), nothing goes wrong (`wired_safe`) and no call is lost (`wired_drain`).
-/

namespace BoostRpc.Json

open Lts

/-! ## One direction of a connection -/

/-- The bytes that were written and not yet read, and the variables of the loop that reads them. -/
structure Pipe where
  bytes : Text
  framing : FrameState

/-- A direction of a new connection. -/
def Pipe.fresh : Pipe := ⟨[], .initial⟩

/-- `socket::write` -/
def Pipe.write (p : Pipe) (text : Text) : Pipe := { p with bytes := p.bytes ++ text }

section Pipe

variable [Platform] {v : Value} {vs : List Value} {text bytes : Text} {pipe : Pipe}

/-- The text of a message that the loop cuts out of the stream and reads back. -/
structure Transportable (v : Value) (text : Text) : Prop where
  written : write v false = some text
  readBack : read text = .ok v
  opens : Opens text
  apparent : Apparent text

/-- These are the texts of the messages. -/
inductive Texts : Text → List Value → Prop
  | nil : Texts [] []
  | cons (text bytes : Text) (v : Value) (vs : List Value) :
      Transportable v text → Texts bytes vs → Texts (text ++ bytes) (v :: vs)

theorem Texts.snoc (h : Texts bytes vs) (hv : Transportable v text) :
    Texts (bytes ++ text) (vs ++ [v]) := by
  induction h with
  | nil =>
      have hsingle := Texts.cons text [] v [] hv .nil
      rwa [List.append_nil] at hsingle
  | cons first bytes w vs hw _ ih =>
      rw [List.append_assoc]
      exact .cons first (bytes ++ text) w (vs ++ [v]) hw ih

/-- The messages that are on their way: the loop is between two texts, or within one, of which it
has the beginning. -/
inductive Pipe.Carries : Pipe → List Value → Prop
  | between (bytes : Text) (vs : List Value) : Texts bytes vs → Carries ⟨bytes, .initial⟩ vs
  | within (begun rest bytes : Text) (v : Value) (vs : List Value) :
      Transportable v (begun ++ rest) → begun ≠ [] → rest ≠ [] → Texts bytes vs →
      Carries ⟨rest ++ bytes, .inside begun⟩ (v :: vs)

namespace Pipe.Carries

/-- Nothing is on its way in a new connection. -/
theorem fresh : Pipe.fresh.Carries [] := .between [] [] .nil

/-- A message is sent. -/
theorem write (h : pipe.Carries vs) (hv : Transportable v text) :
    (pipe.write text).Carries (vs ++ [v]) := by
  cases h with
  | between bytes vs hvs => exact .between _ _ (hvs.snoc hv)
  | within begun rest bytes w vs hw hbegun hrest hvs =>
      have hnext := Pipe.Carries.within begun rest (bytes ++ text) w (vs ++ [v]) hw hbegun hrest
        (hvs.snoc hv)
      rwa [← List.append_assoc] at hnext

/-- Where nothing is left to read, nothing is on its way. -/
theorem nil_of_empty (h : pipe.Carries vs) (hempty : pipe.bytes = []) : vs = [] := by
  cases h with
  | between bytes vs hvs =>
      cases hvs with
      | nil => rfl
      | cons text bytes v vs hv _ =>
          obtain ⟨c, tail, rfl, -⟩ := hv.opens
          cases hempty
  | within begun rest bytes w vs hw hbegun hrest hvs =>
      exact absurd (List.append_eq_nil_iff.mp hempty).1 hrest

end Pipe.Carries

/-- The turn of the loop with the next byte of a message: it goes on with the message, or it has
its text. -/
theorem turn_within {begun rest : Text} {c : Byte} (hv : Transportable v (begun ++ c :: rest))
    (hbegun : begun ≠ []) :
    (FrameState.inside begun).turn c =
      if rest = [] then some (.initial, some (begun ++ [c]))
      else some (.inside (begun ++ [c]), none) := by
  have hpart : begun <+: begun ++ c :: rest := List.prefix_append _ _
  have hproper : begun ≠ begun ++ c :: rest := by simp
  rw [turn_inside (hv.apparent.inside begun hpart hbegun hproper)]
  by_cases hrest : rest = []
  · subst hrest
    rw [if_pos hv.apparent.closed, if_pos rfl]
  · have hpart' : begun ++ [c] <+: begun ++ c :: rest :=
      List.prefix_append_right_inj begun |>.mpr (List.prefix_append [c] rest)
    have hproper' : begun ++ [c] ≠ begun ++ c :: rest := by simp [Ne.symm hrest]
    have hinside := hv.apparent.inside _ hpart' (by simp) hproper'
    rw [if_neg (by omega), if_pos hinside.2, if_neg hrest]

/-- The first turn of the loop with a message. -/
theorem turn_first {rest : Text} {c : Byte} (hv : Transportable v (c :: rest)) :
    rest ≠ [] ∧ FrameState.initial.turn c = some (.inside [c], none) := by
  obtain ⟨d, tail, heq, hc⟩ := hv.opens
  obtain ⟨rfl, rfl⟩ := List.cons.inj heq
  refine ⟨?_, turn_open hc⟩
  rintro rfl
  have hclosed := hv.apparent.closed
  rw [apparent_depth_open hc] at hclosed
  cases hclosed

/-- What a turn of the loop does to the messages that are on their way: nothing, or it takes the
first one. -/
def Pipe.Takes (bytes : Text) (vs : List Value) (framing : FrameState) : Option Text → Prop
  | none => Pipe.Carries ⟨bytes, framing⟩ vs
  | some frame => ∃ v vs', vs = v :: vs' ∧ read frame = .ok v ∧ Pipe.Carries ⟨bytes, framing⟩ vs'

/-- The loop takes the next byte. -/
theorem Pipe.Carries.take {c : Byte} {framing : FrameState}
    (h : Pipe.Carries ⟨c :: bytes, framing⟩ vs) :
    ∃ framing' frame, framing.turn c = some (framing', frame) ∧
      Pipe.Takes bytes vs framing' frame := by
  generalize hpipe : (⟨c :: bytes, framing⟩ : Pipe) = pipe at h
  cases h with
  | between bytes' vs hvs =>
      obtain ⟨rfl, rfl⟩ := Pipe.mk.inj hpipe
      generalize hbytes : c :: bytes = bytes' at hvs
      cases hvs with
      | nil => cases hbytes
      | cons text bytes' v vs hv hvs =>
          obtain ⟨d, rest, rfl, -⟩ := id hv.opens
          obtain ⟨rfl, rfl⟩ := List.cons.inj hbytes
          obtain ⟨hrest, hturn⟩ := turn_first hv
          exact ⟨_, none, hturn, .within [c] rest bytes' v vs hv (List.cons_ne_nil _ _) hrest hvs⟩
  | within begun rest bytes' v vs hv hbegun hrest hvs =>
      obtain ⟨hbytes, rfl⟩ := Pipe.mk.inj hpipe
      obtain ⟨d, rest, rfl⟩ := List.exists_cons_of_ne_nil hrest
      obtain ⟨rfl, rfl⟩ := List.cons.inj hbytes
      have hturn := turn_within hv hbegun
      by_cases hlast : rest = []
      · subst hlast
        rw [if_pos rfl] at hturn
        exact ⟨_, _, hturn, v, vs, rfl, hv.readBack, .between bytes' vs hvs⟩
      · rw [if_neg hlast] at hturn
        refine ⟨_, none, hturn, .within (begun ++ [c]) rest bytes' v vs ?_ (by simp) hlast hvs⟩
        rwa [List.append_assoc]

end Pipe

/-! ## Messages -/

/-- A value that can stand in a message: the parser reads it back, and the printer and the loop can
count its elements and its nesting. -/
structure Sendable (v : Value) : Prop where
  plain : Plain v
  count : counted v = true
  level : nesting v + 1 < 2 ^ 31

/-- The members of requests and responses. -/
def memberNames : List Text := [str "id", str "method", str "params", str "result", str "error"]

/-- A request or response, or a part of one. -/
structure Envelope (o : Object) : Prop where
  names : Object.keys o ⊆ memberNames
  once : (Object.keys o).Nodup
  values : ∀ p ∈ o, Sendable p.2

theorem plain_of_all {text : Text}
    (h : text.all (fun c => isAscii c && c != ch '"' && c != ch '\\') = true) :
    PlainText text := by
  intro c hc
  simpa [and_assoc] using List.all_eq_true.mp h c hc

theorem plain_keys {o : Object} (h : ∀ p ∈ o, PlainText p.1 ∧ Plain p.2) : PlainKeys o := by
  induction o with
  | nil => trivial
  | cons p o ih =>
      obtain ⟨hp, ho⟩ := List.forall_mem_cons.mp h
      exact ⟨hp.1, hp.2, ih ho⟩

theorem counted_keys {o : Object} (h : ∀ p ∈ o, counted p.2 = true) : countedKeys o = true := by
  induction o with
  | nil => rfl
  | cons p o ih =>
      obtain ⟨hp, ho⟩ := List.forall_mem_cons.mp h
      exact Bool.and_eq_true_iff.mpr ⟨hp, ih ho⟩

theorem nesting_keys_lt {o : Object} {n : Nat} (hn : 0 < n) (h : ∀ p ∈ o, nesting p.2 < n) :
    nestingKeys o < n := by
  induction o with
  | nil => exact hn
  | cons p o ih =>
      obtain ⟨hp, ho⟩ := List.forall_mem_cons.mp h
      exact max_lt hp (ih ho)

theorem plain_int (n : Int) : Plain (.int n) := by
  have hmicros : (n : ℚ) = ((n * 10 ^ 6 : Int) : ℚ) / 10 ^ 6 := by
    push_cast
    ring
  exact ⟨n * 10 ^ 6, congrArg Double.finite hmicros⟩

/-- A value without elements is not nested. -/
theorem flat_level : 0 + 1 < 2 ^ 31 := by decide

theorem sendable_int (n : Int) : Sendable (.int n) := ⟨plain_int n, rfl, flat_level⟩

theorem sendable_null : Sendable .null := ⟨trivial, rfl, flat_level⟩

namespace Envelope

variable {o : Object}

theorem nil : Envelope [] := ⟨List.nil_subset _, .nil, nofun⟩

/-- A member is assigned. -/
theorem assign (h : Envelope o) {name : Text} (hname : name ∈ memberNames) {v : Value}
    (hv : Sendable v) : Envelope (o.assign name v) := by
  refine ⟨?_, ?_, fun p hp => ?_⟩
  · rw [keys_assign]
    split
    · exact h.names
    · exact List.append_subset.mpr ⟨h.names, List.cons_subset.mpr ⟨hname, List.nil_subset _⟩⟩
  · rw [keys_assign]
    split
    · exact h.once
    · next hnew =>
        refine List.nodup_append.mpr ⟨h.once, List.nodup_singleton _, fun a ha b hb heq => ?_⟩
        rw [heq, List.mem_singleton.mp hb] at ha
        exact hnew ha
  · rcases mem_assign hp with heq | hold
    · exact heq ▸ hv
    · exact h.values p hold

theorem length_le (h : Envelope o) : o.length ≤ 5 := by
  have hle := (List.subperm_of_subset h.once h.names).length_le
  rwa [Object.keys, List.length_map] at hle

theorem plain_names : ∀ name ∈ memberNames, PlainText name := by
  have hall : memberNames.all (fun name =>
      name.all fun c => isAscii c && c != ch '"' && c != ch '\\') = true := by decide
  exact fun name hname => plain_of_all (List.all_eq_true.mp hall name hname)

/-- A request or response goes through the stream. -/
theorem transportable [Platform] (hexact : ExactNumerals) (h : Envelope o) :
    ∃ text, Transportable (.object o) text := by
  have hplain : Plain (.object o) := by
    refine plain_keys fun p hp => ⟨plain_names p.1 (h.names ?_), (h.values p hp).plain⟩
    exact List.mem_map.mpr ⟨p, hp, rfl⟩
  have hcount : counted (.object o) = true := by
    have hlength := h.length_le
    refine Bool.and_eq_true_iff.mpr ⟨decide_eq_true (by omega), ?_⟩
    exact counted_keys fun p hp => (h.values p hp).count
  have hnesting : nesting (.object o) < 2 ^ 31 := by
    have hkeys : nestingKeys o < 2 ^ 31 - 1 := by
      refine nesting_keys_lt (by decide) fun p hp => ?_
      have hlevel := (h.values p hp).level
      omega
    rw [nesting]
    omega
  obtain ⟨text, hwrite⟩ := (write_returns_iff (.object o) false).mpr hcount
  obtain ⟨n, hn, henclosed⟩ := renders_enclosed (renders_write hplain hwrite) rfl
  exact ⟨text, hwrite, read_written hexact hplain hwrite, henclosed.opens,
    (enclosed_apparent_iff henclosed).mpr (by omega)⟩

end Envelope

/-! ## The parties -/

/-- A client, the connection that serves it, and the two directions in between. -/
structure WiredSession (I : Interface) (σ φ : Type) where
  client : Connection Unit φ
  stubs : I.Method → SendFunctor
  fibers : φ → FiberState I
  /-- `read_loop` of the client has not been left. -/
  clientReads : Bool
  server : Connection σ Unit
  serverReads : Bool
  /-- From the client to the server. -/
  requests : Pipe
  /-- From the server to the client. -/
  responses : Pipe

/-- The sessions, which share the object. -/
structure Wired (I : Interface) (σ κ φ : Type) where
  world : σ
  session : κ → WiredSession I σ φ

/-- What happens. -/
inductive WireEvent (I : Interface) (κ φ : Type) where
  /-- A fiber calls a stub, up to the wait. -/
  | call (k : κ) (f : φ) (m : I.Method) (p : I.Params m)
  /-- `read_loop` of the server takes a byte. -/
  | serverByte (k : κ)
  /-- `read_loop` of the client takes a byte. -/
  | clientByte (k : κ)
  /-- The wait of a fiber returns, and its stub returns or throws. -/
  | wake (k : κ) (f : φ)

section Step

variable {I : Interface} {σ κ φ : Type}

/-- The session with these messages on their way. -/
def WiredSession.view (w : WiredSession I σ φ) (requests responses : List Value) :
    ClientSession I σ φ where
  client := w.client
  stubs := w.stubs
  fibers := w.fibers
  clientReads := w.clientReads
  server := w.server
  serverReads := w.serverReads
  requests
  responses

/-- The session behind the constructors of `client` and `server`. -/
def WiredSession.Fresh (impl : Implementation I σ) (w : WiredSession I σ φ) : Prop :=
  (w.view [] []).Fresh impl ∧ w.requests = .fresh ∧ w.responses = .fresh

variable [DecidableEq κ] [DecidableEq φ]

/-- A session goes on. -/
def Wired.put (w : Wired I σ κ φ) (k : κ) (session : WiredSession I σ φ) : Wired I σ κ φ :=
  { w with session := Function.update w.session k session }

variable [Platform]

/-- One event. A step without a result is one of code that never returns, or that has no defined
result. -/
def Wired.step (w : Wired I σ κ φ) : WireEvent I κ φ → Result (Wired I σ κ φ)
  | .call k f m p =>
      let session := w.session k
      match session.fibers f with
      | .running =>
          let called := ((session.view [] []).call f m p).1
          match sendAll called.requests with
          | some text =>
              .next (w.put k { session with
                client := called.client
                stubs := called.stubs
                fibers := called.fibers
                requests := session.requests.write text })
          | none => .undefined
      | _ => .impossible
  | .serverByte k =>
      let session := w.session k
      match session.serverReads, session.requests with
      | true, ⟨c :: bytes, framing⟩ =>
          match framing.turn c with
          | none => .undefined
          | some (framing, none) =>
              .next (w.put k { session with requests := ⟨bytes, framing⟩ })
          | some (framing, some frame) =>
              match read frame with
              -- `read_loop` is left
              | .error _ =>
                  .next (w.put k { session with
                    requests := ⟨bytes, framing⟩
                    serverReads := false })
              | .ok v =>
                  -- the server calls no `invoke`
                  match Connection.onReceive { session.server with world := w.world }
                    (fun _ => false) v with
                  | (_, .undefined) => .undefined
                  | (server, .returned ⟨sent, _⟩) =>
                      match sendAll sent with
                      | some text =>
                          .next { w.put k { session with
                            server
                            requests := ⟨bytes, framing⟩
                            responses := session.responses.write text } with world := server.world }
                      | none => .undefined
                  | (server, _) =>
                      .next { w.put k { session with
                        server
                        requests := ⟨bytes, framing⟩
                        serverReads := false } with world := server.world }
      | _, _ => .impossible
  | .clientByte k =>
      let session := w.session k
      match session.clientReads, session.responses with
      | true, ⟨c :: bytes, framing⟩ =>
          match framing.turn c with
          | none => .undefined
          | some (framing, none) =>
              .next (w.put k { session with responses := ⟨bytes, framing⟩ })
          | some (framing, some frame) =>
              match read frame with
              | .error _ =>
                  .next (w.put k { session with
                    responses := ⟨bytes, framing⟩
                    clientReads := false })
              | .ok v =>
                  match session.client.onReceive (fun f => (session.fibers f).alive) v with
                  | (_, .undefined) => .undefined
                  | (client, .returned ⟨sent, completed⟩) =>
                      match sendAll sent, completed with
                      | some text, some (f, response) =>
                          match session.fibers f with
                          | .waiting m =>
                              .next (w.put k { session with
                                client
                                responses := ⟨bytes, framing⟩
                                requests := session.requests.write text
                                fibers :=
                                  Function.update session.fibers f (.woken m response) })
                          | _ => .undefined
                      | some text, none =>
                          .next (w.put k { session with
                            client
                            responses := ⟨bytes, framing⟩
                            requests := session.requests.write text })
                      | none, _ => .undefined
                  | (client, _) =>
                      .next (w.put k { session with
                        client
                        responses := ⟨bytes, framing⟩
                        clientReads := false })
      | _, _ => .impossible
  | .wake k f =>
      match (w.session k).fibers f with
      | .woken _ _ => .next (w.put k { w.session k with
          fibers := Function.update (w.session k).fibers f .running })
      | _ => .impossible

/-- The sessions over byte streams with an object in this state. -/
def wired (impl : Implementation I σ) (world : σ) : System (Wired I σ κ φ) (WireEvent I κ φ) where
  start w := w.world = world ∧ ∀ k, (w.session k).Fresh impl
  step := Wired.step

/-- What the fibers see: that they call a stub, and what it returns or throws. -/
def Wired.see (w : Wired I σ κ φ) :
    WireEvent I κ φ → Option (Atomic.Seen (κ × φ) I.Op I.Answer)
  | .call k f m p => some (.call (k, f) ⟨m, p⟩)
  | .wake k f =>
      match (w.session k).fibers f with
      | .woken m response => some (.answer (k, f) ⟨m, decodeResponse (I.result m) response⟩)
      | _ => none
  | _ => none

end Step

/-! ## What is packed goes through the stream -/

/-- The names of the methods are plain, and so is what the parameters and results are packed
into. -/
structure Interface.OverWire (I : Interface) : Prop where
  names : ∀ m, PlainText (I.name m)
  params : ∀ m slot p v, (I.params m).pack slot p = .ok v → Sendable v
  results : ∀ m r v, (I.result m).pack .null r = .ok v → Sendable v

/-- What the object throws has a plain text. -/
def Implementation.PlainErrors {I : Interface} {σ : Type} (impl : Implementation I σ) : Prop :=
  ∀ m p world text, remote (impl.func m p world).1 = .error (remoteError text) → PlainText text

section Envelopes

variable {I : Interface} {σ : Type} {stub : SendFunctor} {v : Value} {m : I.Method}

/-- A new stub. -/
theorem envelope_new {name : Text} (h : PlainText name) : Envelope (SendFunctor.new name).msg := by
  have harray : Sendable (.array []) := ⟨trivial, rfl, by decide⟩
  have hname : Sendable (.string name) := ⟨h, rfl, flat_level⟩
  exact ((Envelope.nil.assign (by decide) (sendable_int 0)).assign (by decide) hname).assign
    (by decide) harray

/-- A stub behind a call. -/
theorem envelope_request (h : Envelope stub.msg) (hv : Sendable v) (id : Int) :
    Envelope (stub.request v id) :=
  (h.assign (by decide) hv).assign (by decide) (sendable_int id)

/-- An error object. -/
theorem sendable_error {text : Text} (htext : PlainText text)
    (hpacked : packError ⟨some 0, some text, none⟩ = .ok v) : Sendable v := by
  have hv : Value.object [(str "code", .int 0), (str "message", .string text)] = v :=
    Except.ok.inj hpacked
  subst hv
  refine ⟨⟨plain_of_all (by decide), plain_int 0, plain_of_all (by decide), htext, trivial⟩, rfl,
    ?_⟩
  show max 0 (max 0 0) + 1 + 1 < 2 ^ 31
  decide

/-- A response. -/
theorem envelope_response (hwire : I.OverWire) {id : Int} {r : Except Exception (I.Result m)}
    {response : Object} (h : ResponseTo I id m r response)
    (hplain : ∀ text, remote r = .error (remoteError text) → PlainText text) :
    Envelope response := by
  have hfirst := Envelope.nil.assign (by decide : str "id" ∈ memberNames) (sendable_int id)
  cases h with
  | ok r packed hpacked _ => exact hfirst.assign (by decide) (hwire.results m r packed hpacked)
  | error e text packed hpacked hremote =>
      exact (hfirst.assign (by decide) sendable_null).assign (by decide)
        (sendable_error (hplain text hremote) hpacked)

end Envelopes

/-! ## The bytes carry the messages -/

/-- What becomes of a fiber while messages arrive. -/
def FiberState.Later {I : Interface} (x y : FiberState I) : Prop :=
  match x with
  | .waiting m => y = x ∨ ∃ response, y = .woken m response
  | _ => y = x

theorem FiberState.Later.refl {I : Interface} (x : FiberState I) : x.Later x := by
  cases x with
  | waiting m => exact .inl rfl
  | running | woken => rfl

theorem FiberState.Later.trans {I : Interface} {x y z : FiberState I} (h : x.Later y)
    (h' : y.Later z) : x.Later z := by
  cases x with
  | waiting m =>
      rcases h with rfl | ⟨response, rfl⟩
      · exact h'
      · exact .inr ⟨response, h'⟩
  | running | woken => exact (h : y = _) ▸ h'

section Carries

variable {I : Interface} {σ κ φ : Type} [Platform]

/-- The bytes in the two directions carry the messages of a session. -/
structure WiredSession.Carries (w : WiredSession I σ φ) (s : ClientSession I σ φ) : Prop where
  view : s = w.view s.requests s.responses
  requests : w.requests.Carries s.requests
  responses : w.responses.Carries s.responses
  stubs : ∀ m, Envelope (w.stubs m).msg

/-- The bytes carry the messages of all sessions. -/
structure Wired.Carries (w : Wired I σ κ φ) (s : Sessions I σ κ φ) : Prop where
  world : s.world = w.world
  session : ∀ k, (w.session k).Carries (s.session k)

/-- In a new session no message is on its way, and no byte. -/
theorem WiredSession.Fresh.carries {impl : Implementation I σ} (hwire : I.OverWire)
    {w : WiredSession I σ φ} (h : w.Fresh impl) : w.Carries (w.view [] []) := by
  obtain ⟨⟨-, hstubs, -⟩, hrequests, hresponses⟩ := h
  refine ⟨rfl, ?_, ?_, fun m => ?_⟩
  · rw [hrequests]
    exact .fresh
  · rw [hresponses]
    exact .fresh
  · have hnew : w.stubs m = .new (I.name m) := hstubs m
    rw [hnew]
    exact envelope_new (hwire.names m)

omit [Platform] in
/-- A new session can be one over byte streams. -/
theorem ClientSession.Fresh.wires {impl : Implementation I σ} {s : ClientSession I σ φ}
    (h : s.Fresh impl) : ∃ w : WiredSession I σ φ, w.Fresh impl ∧ s = w.view [] [] := by
  obtain ⟨client, stubs, fibers, clientReads, server, serverReads, requests, responses⟩ := s
  obtain ⟨hpending, hstubs, hfibers, hclient, hserver, hreads, rfl, rfl⟩ := h
  exact ⟨⟨client, stubs, fibers, clientReads, server, serverReads, .fresh, .fresh⟩,
    ⟨⟨hpending, hstubs, hfibers, hclient, hserver, hreads, rfl, rfl⟩, rfl, rfl⟩, rfl⟩

variable [DecidableEq κ] [DecidableEq φ] {impl : Implementation I σ} {w w' : Wired I σ κ φ}
  {s s' : Sessions I σ κ φ}

omit [DecidableEq φ] in
/-- One session goes on. -/
theorem Wired.Carries.put (h : w.Carries s) (hworld : s'.world = w'.world) {k : κ}
    {wires : WiredSession I σ φ} {session : ClientSession I σ φ}
    (hw : w'.session = Function.update w.session k wires)
    (hs : s'.session = Function.update s.session k session) (hcarries : wires.Carries session) :
    w'.Carries s' := by
  refine ⟨hworld, fun j => ?_⟩
  rw [hw, hs]
  by_cases hj : j = k
  · subst hj
    rwa [Function.update_self, Function.update_self]
  · rw [Function.update_of_ne hj, Function.update_of_ne hj]
    exact h.session j

omit [Platform] in
theorem send_one {v : Value} {text : Text} (h : write v false = some text) :
    sendAll [v] = some text := by
  simp [sendAll, h]

omit [Platform] in
theorem Pipe.write_nil (p : Pipe) : p.write [] = p := by
  rw [Pipe.write, List.append_nil]

variable {o : Atomic.Object (κ × φ) I.Op I.Answer σ} {k : κ} {f : φ}

/-- A stub is called: the text of its request is written. -/
theorem wire_call (hexact : ExactNumerals) (hwire : I.OverWire) (hrefines : Refines impl s o)
    (hcarries : w.Carries s) (hf : (w.session k).fibers f = .running) (m : I.Method)
    (p : I.Params m) :
    ∃ w' s', w.step (.call k f m p) = .next w' ∧ s.step (.call k f m p) = .next s' ∧
      w'.Carries s' := by
  obtain ⟨asked, answered, hlinked⟩ := hrefines.2 k
  obtain ⟨hview, hrequests, hresponses, hstubs⟩ := hcarries.session k
  generalize (s.session k).requests = requests at hview hrequests
  generalize (s.session k).responses = responses at hview hresponses
  rw [hview] at hlinked
  obtain ⟨v, hpack, -, hcall⟩ := session_call (hlinked.stubs m) f p
  have hname : (((w.session k).view [] []).stubs m).name = I.name m := hlinked.stubs m
  obtain ⟨v', hpack', -, hcall'⟩ := session_call hname f p
  obtain rfl := Except.ok.inj (hpack.symm.trans hpack')
  have henvelope := envelope_request (hstubs m) (hwire.params m _ p v hpack)
    (increment (w.session k).client.nextId)
  obtain ⟨text, htext⟩ := henvelope.transportable hexact
  have hwritten : sendAll (((w.session k).view [] []).call f m p).1.requests = some text := by
    rw [hcall']
    exact send_one htext.written
  have hrunning : (s.session k).fibers f = .running := by
    rw [hview]
    exact hf
  let called := (((w.session k).view [] []).call f m p).1
  refine ⟨w.put k { w.session k with
      client := called.client
      stubs := called.stubs
      fibers := called.fibers
      requests := (w.session k).requests.write text },
    s.put k ((s.session k).call f m p).1, ?_, ?_, hcarries.put hcarries.world rfl rfl ?_⟩
  · simp only [Wired.step, hf, hwritten, called]
  · simp only [Sessions.step, hrunning]
  · simp only [called]
    rw [hview, hcall, hcall']
    refine ⟨rfl, hrequests.write htext, hresponses, fun m' => ?_⟩
    show Envelope (Function.update (w.session k).stubs m _ m').msg
    by_cases hm : m' = m
    · subst hm
      rw [Function.update_self]
      exact henvelope
    · rw [Function.update_of_ne hm]
      exact hstubs m'

/-- The loop of the server takes a byte: within a message nothing happens, and behind its last byte
the request is served and the text of the response is written. -/
theorem wire_server_byte (hexact : ExactNumerals) (hwire : I.OverWire) (hplain : impl.PlainErrors)
    (hrefines : Refines impl s o) (hcarries : w.Carries s) {c : Byte} {bytes : Text}
    (hbytes : (w.session k).requests.bytes = c :: bytes) :
    ∃ w' s', w.step (.serverByte k) = .next w' ∧
      (s' = s ∨ s.step (.serve k) = .next s') ∧ w'.Carries s' ∧
      (w'.session k).requests.bytes = bytes ∧ (w'.session k).fibers = (w.session k).fibers := by
  obtain ⟨asked, answered, hlinked⟩ := hrefines.2 k
  obtain ⟨hview, hrequests, hresponses, hstubs⟩ := hcarries.session k
  have hpipe : (w.session k).requests = ⟨c :: bytes, (w.session k).requests.framing⟩ := by
    rw [← hbytes]
  generalize (w.session k).requests.framing = framing at hpipe
  rw [hpipe] at hrequests
  have hreads : (w.session k).serverReads = true := by
    have hserver := hlinked.reads.2
    rwa [hview] at hserver
  obtain ⟨framing', frame, hturn, htakes⟩ := hrequests.take
  have hput : ∀ session : WiredSession I σ φ, (w.put k session).session k = session :=
    fun session => Function.update_self _ _ _
  cases frame with
  | none =>
      refine ⟨w.put k { w.session k with requests := ⟨bytes, framing'⟩ }, s, ?_, .inl rfl, ?_, ?_,
        ?_⟩
      · simp only [Wired.step, hreads, hpipe, hturn]
      · refine hcarries.put hcarries.world rfl (Function.update_eq_self k s.session).symm ?_
        exact ⟨hview, htakes, hresponses, hstubs⟩
      · rw [hput]
      · rw [hput]
  | some frame =>
      obtain ⟨v, vs, hqueue, hread, hrest⟩ := htakes
      obtain ⟨t, asked, rfl⟩ : ∃ t asked', asked = t :: asked' := by
        have hasked := hlinked.requests.symm.trans hqueue
        cases asked with
        | nil => cases hasked
        | cons t asked => exact ⟨t, asked, rfl⟩
      obtain ⟨rfl, rfl⟩ := List.cons.inj (hqueue.symm.trans hlinked.requests)
      obtain ⟨op, response, hphase, hwaiting, hresponse, hserved⟩ := hlinked.served s.world
      obtain ⟨text, htext⟩ :=
        (envelope_response hwire hresponse (hplain op.1 op.2 s.world)).transportable hexact
      have hserver : (s.session k).server = (w.session k).server := by rw [hview]; rfl
      have hserved' : Connection.onReceive { (w.session k).server with world := w.world }
          (fun _ => false) t.value =
            ({ (w.session k).server with world := (impl.apply op s.world).1 },
              .returned ⟨[.object response], none⟩) := by
        rw [← hserver, ← hcarries.world]
        exact hserved
      let session : WiredSession I σ φ := { w.session k with
        server := { (w.session k).server with world := (impl.apply op s.world).1 }
        requests := ⟨bytes, framing'⟩
        responses := (w.session k).responses.write text }
      refine ⟨{ w.put k session with world := (impl.apply op s.world).1 },
        { s.put k { s.session k with
            server := { (s.session k).server with world := (impl.apply op s.world).1 }
            requests := asked.map Travelling.value
            responses := (s.session k).responses ++ [.object response] } with
          world := (impl.apply op s.world).1 }, ?_, .inr ?_, hcarries.put rfl rfl rfl ?_, ?_, ?_⟩
      · simp only [Wired.step, hreads, hpipe, hturn, hread, hserved', send_one htext.written,
          session]
      · simp only [Sessions.step, hlinked.reads.2, hqueue, hserved]
      · refine ⟨?_, hrest, hresponses.write htext, hstubs⟩
        rw [hview]
        rfl
      · show ((w.put k session).session k).requests.bytes = bytes
        rw [hput]
      · show ((w.put k session).session k).fibers = session.fibers
        rw [hput]

/-- The loop of the client takes a byte: within a message nothing happens, and behind its last byte
the fiber that waits for the response is woken. -/
theorem wire_client_byte (hrefines : Refines impl s o) (hcarries : w.Carries s) {c : Byte}
    {bytes : Text} (hbytes : (w.session k).responses.bytes = c :: bytes) :
    ∃ w' s', w.step (.clientByte k) = .next w' ∧
      (s' = s ∨ s.step (.receive k) = .next s') ∧ w'.Carries s' ∧
      (w'.session k).requests = (w.session k).requests ∧
      (w'.session k).responses.bytes = bytes ∧
      ∀ f, ((w.session k).fibers f).Later ((w'.session k).fibers f) := by
  obtain ⟨asked, answered, hlinked⟩ := hrefines.2 k
  obtain ⟨hview, hrequests, hresponses, hstubs⟩ := hcarries.session k
  have hpipe : (w.session k).responses = ⟨c :: bytes, (w.session k).responses.framing⟩ := by
    rw [← hbytes]
  generalize (w.session k).responses.framing = framing at hpipe
  rw [hpipe] at hresponses
  have hreads : (w.session k).clientReads = true := by
    have hclient := hlinked.reads.1
    rwa [hview] at hclient
  obtain ⟨framing', frame, hturn, htakes⟩ := hresponses.take
  have hput : ∀ session : WiredSession I σ φ, (w.put k session).session k = session :=
    fun session => Function.update_self _ _ _
  cases frame with
  | none =>
      refine ⟨w.put k { w.session k with responses := ⟨bytes, framing'⟩ }, s, ?_, .inl rfl, ?_, ?_,
        ?_, fun f => ?_⟩
      · simp only [Wired.step, hreads, hpipe, hturn]
      · refine hcarries.put hcarries.world rfl (Function.update_eq_self k s.session).symm ?_
        exact ⟨hview, hrequests, htakes, hstubs⟩
      · rw [hput]
      · rw [hput]
      · rw [hput]
        exact .refl _
  | some frame =>
      obtain ⟨v, vs, hqueue, hread, hrest⟩ := htakes
      obtain ⟨t, answered, rfl⟩ : ∃ t answered', answered = t :: answered' := by
        have hanswered := hlinked.responses.symm.trans hqueue
        cases answered with
        | nil => cases hanswered
        | cons t answered => exact ⟨t, answered, rfl⟩
      obtain ⟨rfl, rfl⟩ := List.cons.inj (hqueue.symm.trans hlinked.responses)
      obtain ⟨answer, -, hwaiting, -, hreceived⟩ := hlinked.received
      have hclient : (s.session k).client = (w.session k).client := by rw [hview]; rfl
      have hfibers : (s.session k).fibers = (w.session k).fibers := by rw [hview]; rfl
      have hwaiting' := hwaiting
      have hreceived' := hreceived
      rw [hfibers] at hwaiting'
      rw [hclient, hfibers] at hreceived'
      let session : WiredSession I σ φ := { w.session k with
        client := (w.session k).client.erase t.id
        responses := ⟨bytes, framing'⟩
        fibers := Function.update (w.session k).fibers t.fiber (.woken answer.1 t.value) }
      refine ⟨w.put k session, s.put k { s.session k with
          client := (s.session k).client.erase t.id
          responses := answered.map Travelling.value
          fibers := Function.update (s.session k).fibers t.fiber (.woken answer.1 t.value) },
        ?_, .inr ?_, hcarries.put hcarries.world rfl rfl ?_, ?_, ?_, fun f => ?_⟩
      · have hnone : sendAll [] = some [] := rfl
        simp only [Wired.step, hreads, hpipe, hturn, hread, hreceived', hwaiting', hnone,
          Pipe.write_nil, session]
      · simp only [Sessions.step, hlinked.reads.1, hqueue, hreceived, hwaiting, List.append_nil]
      · refine ⟨?_, hrequests, hrest, hstubs⟩
        rw [hview]
        rfl
      · show ((w.put k session).session k).requests = session.requests
        rw [hput]
      · show ((w.put k session).session k).responses.bytes = bytes
        rw [hput]
      · rw [hput]
        show ((w.session k).fibers f).Later
          (Function.update (w.session k).fibers t.fiber (.woken answer.1 t.value) f)
        by_cases hf : f = t.fiber
        · subst hf
          rw [Function.update_self, hwaiting']
          exact .inr ⟨t.value, rfl⟩
        · rw [Function.update_of_ne hf]
          exact .refl _

/-- A stub returns. -/
theorem wire_wake (hcarries : w.Carries s) {m : I.Method} {v : Value}
    (hf : (w.session k).fibers f = .woken m v) :
    ∃ w' s', w.step (.wake k f) = .next w' ∧ s.step (.wake k f) = .next s' ∧ w'.Carries s' ∧
      w.see (.wake k f) = s.see (.wake k f) := by
  obtain ⟨hview, hrequests, hresponses, hstubs⟩ := hcarries.session k
  have hf' : (s.session k).fibers f = .woken m v := by
    rw [hview]
    exact hf
  refine ⟨w.put k { w.session k with
      fibers := Function.update (w.session k).fibers f .running },
    s.put k { s.session k with fibers := Function.update (s.session k).fibers f .running }, ?_, ?_,
    hcarries.put hcarries.world rfl rfl ⟨?_, hrequests, hresponses, hstubs⟩, ?_⟩
  · simp only [Wired.step, hf]
  · simp only [Sessions.step, hf']
  · rw [hview]
    rfl
  · simp only [Wired.see, Sessions.see, hf, hf']

end Carries

/-! ## The switch over byte streams -/

theorem switch_over_wire : switchInterface.OverWire := by
  have hname : PlainText (str "flip") := plain_of_all (by decide)
  refine ⟨fun _ => hname, fun m slot p v hv => ?_, fun m b v hv => ?_⟩
  · obtain rfl : Value.array [] = v := Except.ok.inj hv
    exact ⟨trivial, rfl, by decide⟩
  · obtain rfl : Value.bool b = v := Except.ok.inj hv
    exact ⟨trivial, rfl, flat_level⟩

theorem switch_plain_errors : switch.PlainErrors := by
  intro m p world text h
  cases h

/-! ## Runs -/

section Runs

variable {I : Interface} {σ κ φ : Type} [Platform] [DecidableEq κ] [DecidableEq φ]
  {impl : Implementation I σ} {world : σ} {w w' : Wired I σ κ φ} {s : Sessions I σ κ φ}
  {o : Atomic.Object (κ × φ) I.Op I.Answer σ} {h : List (Atomic.Seen (κ × φ) I.Op I.Answer)}

/-- A byte can be taken only where one is left. -/
theorem server_byte_nil {k : κ} (hbytes : (w.session k).requests.bytes = []) :
    w.step (.serverByte k) = .impossible := by
  have hpipe : (w.session k).requests = ⟨[], (w.session k).requests.framing⟩ := by rw [← hbytes]
  simp only [Wired.step]
  rw [hpipe]
  cases (w.session k).serverReads <;> rfl

theorem client_byte_nil {k : κ} (hbytes : (w.session k).responses.bytes = []) :
    w.step (.clientByte k) = .impossible := by
  have hpipe : (w.session k).responses = ⟨[], (w.session k).responses.framing⟩ := by rw [← hbytes]
  simp only [Wired.step]
  rw [hpipe]
  cases (w.session k).clientReads <;> rfl

/-- What an event over the streams is for the sessions: nothing, or an event of which the same is
seen. -/
def Answers (s : Sessions I σ κ φ) (w : Wired I σ κ φ) (e : WireEvent I κ φ)
    (s' : Sessions I σ κ φ) : Prop :=
  s' = s ∧ w.see e = none ∨ ∃ e', s.step e' = .next s' ∧ s.see e' = w.see e

/-- An event is not possible, or it has a result and the sessions follow. -/
theorem wire_step (hexact : ExactNumerals) (hwire : I.OverWire) (hplain : impl.PlainErrors)
    (hrefines : Refines impl s o) (hcarries : w.Carries s) (e : WireEvent I κ φ) :
    w.step e = .impossible ∨
      ∃ w' s', w.step e = .next w' ∧ w'.Carries s' ∧ Answers s w e s' := by
  cases e with
  | call k f m p =>
      cases hf : (w.session k).fibers f with
      | running =>
          obtain ⟨w', s', hw, hs, hcarries'⟩ := wire_call hexact hwire hrefines hcarries hf m p
          exact .inr ⟨w', s', hw, hcarries', .inr ⟨_, hs, rfl⟩⟩
      | waiting | woken =>
          refine .inl ?_
          simp only [Wired.step, hf]
  | serverByte k =>
      cases hbytes : (w.session k).requests.bytes with
      | nil => exact .inl (server_byte_nil hbytes)
      | cons c bytes =>
          obtain ⟨w', s', hw, hs, hcarries', -, -⟩ :=
            wire_server_byte hexact hwire hplain hrefines hcarries hbytes
          refine .inr ⟨w', s', hw, hcarries', hs.imp (fun hs => ⟨hs, rfl⟩) fun hs => ?_⟩
          exact ⟨_, hs, rfl⟩
  | clientByte k =>
      cases hbytes : (w.session k).responses.bytes with
      | nil => exact .inl (client_byte_nil hbytes)
      | cons c bytes =>
          obtain ⟨w', s', hw, hs, hcarries', -, -, -⟩ := wire_client_byte hrefines hcarries hbytes
          refine .inr ⟨w', s', hw, hcarries', hs.imp (fun hs => ⟨hs, rfl⟩) fun hs => ?_⟩
          exact ⟨_, hs, rfl⟩
  | wake k f =>
      cases hf : (w.session k).fibers f with
      | woken m v =>
          obtain ⟨w', s', hw, hs, hcarries', hsee⟩ := wire_wake hcarries hf
          exact .inr ⟨w', s', hw, hcarries', .inr ⟨_, hs, hsee.symm⟩⟩
      | running | waiting =>
          refine .inl ?_
          simp only [Wired.step, hf]

/-- The bytes behind a run carry the messages behind a run of the sessions of which the same is
seen. -/
theorem wired_trace (hexact : ExactNumerals) (hwire : I.OverWire) (hplain : impl.PlainErrors)
    (htrace : Trace (wired impl world) (fun _ _ => True) Wired.see h w)
    (hcalls : ∀ k, callsBy k h ≤ 2 ^ 32) :
    ∃ s, Trace (sessions impl world) (fun _ _ => True) Sessions.see h s ∧ w.Carries s := by
  induction htrace with
  | start w hw =>
      obtain ⟨hworld, hfresh⟩ := hw
      exact ⟨⟨w.world, fun k => (w.session k).view [] []⟩,
        .start _ ⟨hworld, fun k => (hfresh k).1⟩, rfl, fun k => (hfresh k).carries hwire⟩
  | step h w w' e _ _ hstep ih =>
      have hcalls' := fun k => (calls_by_mono k h _).trans (hcalls k)
      obtain ⟨s, htrace, hcarries⟩ := ih hcalls'
      obtain ⟨o, -, hrefines⟩ := trace_refines htrace hcalls'
      obtain himpossible | ⟨w'', s', hw, hcarries', hanswers⟩ :=
        wire_step hexact hwire hplain hrefines hcarries e
      · cases himpossible.symm.trans hstep
      · obtain rfl := Result.next.inj (hw.symm.trans hstep)
        refine ⟨s', ?_, hcarries'⟩
        obtain ⟨rfl, hnone⟩ | ⟨e', hs, hsee⟩ := hanswers
        · rw [hnone, Option.toList_none, List.append_nil]
          exact htrace
        · rw [← hsee]
          exact .step h s s' e' htrace trivial hs

/-- A loop reads on, byte by byte, until it has taken the message in front. -/
theorem message_taken (byte : WireEvent I κ φ) {take : SessionEvent I κ φ}
    (pipe : Wired I σ κ φ → Text) (hquiet : ∀ w : Wired I σ κ φ, w.see byte = none)
    (hempty : ∀ w, Wired.Carries w s → pipe w = [] → ∀ s', s.step take ≠ .next s')
    (hbyte : ∀ w c bytes, Wired.Carries w s → pipe w = c :: bytes → ∃ w' s',
      w.step byte = .next w' ∧ (s' = s ∨ s.step take = .next s') ∧ w'.Carries s' ∧
        pipe w' = bytes)
    (htrace : Trace (wired impl world) (fun _ _ => True) Wired.see h w) (bytes : Text)
    (hcarries : w.Carries s) (hbytes : pipe w = bytes) {s' : Sessions I σ κ φ}
    (htake : s.step take = .next s') :
    ∃ w', Trace (wired impl world) (fun _ _ => True) Wired.see h w' ∧ w'.Carries s' := by
  induction bytes generalizing w with
  | nil => exact absurd htake (hempty w hcarries hbytes s')
  | cons c bytes ih =>
      obtain ⟨w', s'', hw, hs, hcarries', hbytes'⟩ := hbyte w c bytes hcarries hbytes
      have hseen : h ++ (w.see byte).toList = h := by
        rw [hquiet, Option.toList_none, List.append_nil]
      have hnext : Trace (wired impl world) (fun _ _ => True) Wired.see h w' := by
        rw [← hseen]
        exact .step h w w' byte htrace trivial hw
      obtain rfl | hs := hs
      · exact ih hnext hcarries' hbytes'
      · obtain rfl := Result.next.inj (hs.symm.trans htake)
        exact ⟨w', hnext, hcarries'⟩

/-- The server reads on until it has taken the request in front. -/
theorem server_message (hexact : ExactNumerals) (hwire : I.OverWire) (hplain : impl.PlainErrors)
    (htrace : Trace (wired impl world) (fun _ _ => True) Wired.see h w)
    (hrefines : Refines impl s o) (hcarries : w.Carries s) {k : κ} {s' : Sessions I σ κ φ}
    (hserve : s.step (.serve k) = .next s') :
    ∃ w', Trace (wired impl world) (fun _ _ => True) Wired.see h w' ∧ w'.Carries s' := by
  refine message_taken (.serverByte k) (fun w => (w.session k).requests.bytes)
    (fun _ => rfl) (fun w hcarries hbytes s' hserve => ?_) (fun w c bytes hcarries hbytes => ?_)
    htrace _ hcarries rfl hserve
  · obtain ⟨asked, answered, hlinked⟩ := hrefines.2 k
    obtain ⟨t, asked, rfl⟩ := hlinked.asked_of_serve hserve
    cases hlinked.requests.symm.trans ((hcarries.session k).requests.nil_of_empty hbytes)
  · obtain ⟨w', s', hw, hs, hcarries', hbytes', -⟩ :=
      wire_server_byte hexact hwire hplain hrefines hcarries hbytes
    exact ⟨w', s', hw, hs, hcarries', hbytes'⟩

/-- The client reads on until it has taken the response in front. -/
theorem client_message (htrace : Trace (wired impl world) (fun _ _ => True) Wired.see h w)
    (hrefines : Refines impl s o) (hcarries : w.Carries s) {k : κ} {s' : Sessions I σ κ φ}
    (hreceive : s.step (.receive k) = .next s') :
    ∃ w', Trace (wired impl world) (fun _ _ => True) Wired.see h w' ∧ w'.Carries s' := by
  refine message_taken (.clientByte k) (fun w => (w.session k).responses.bytes)
    (fun _ => rfl) (fun w hcarries hbytes s' hreceive => ?_)
    (fun w c bytes hcarries hbytes => ?_) htrace _ hcarries rfl hreceive
  · obtain ⟨asked, answered, hlinked⟩ := hrefines.2 k
    obtain ⟨t, answered, rfl⟩ := hlinked.answered_of_receive hreceive
    cases hlinked.responses.symm.trans ((hcarries.session k).responses.nil_of_empty hbytes)
  · obtain ⟨w', s', hw, hs, hcarries', -, hbytes', -⟩ :=
      wire_client_byte hrefines hcarries hbytes
    exact ⟨w', s', hw, hs, hcarries', hbytes'⟩

/-- What is seen of the sessions can be seen over byte streams. -/
theorem sessions_trace (hexact : ExactNumerals) (hwire : I.OverWire) (hplain : impl.PlainErrors)
    (htrace : Trace (sessions impl world) (fun _ _ => True) Sessions.see h s)
    (hcalls : ∀ k, callsBy k h ≤ 2 ^ 32) :
    ∃ w, Trace (wired impl world) (fun _ _ => True) Wired.see h w ∧ w.Carries s := by
  induction htrace with
  | start s hs =>
      obtain ⟨hworld, hfresh⟩ := hs
      choose wires hwires hview using fun k => (hfresh k).wires
      refine ⟨⟨s.world, wires⟩, .start _ ⟨hworld, hwires⟩, rfl, fun k => ?_⟩
      rw [hview k]
      exact (hwires k).carries hwire
  | step h s s' e htrace _ hstep ih =>
      have hcalls' := fun k => (calls_by_mono k h _).trans (hcalls k)
      obtain ⟨w, hwired, hcarries⟩ := ih hcalls'
      obtain ⟨o, -, hrefines⟩ := trace_refines htrace hcalls'
      have hfibers : ∀ k, (s.session k).fibers = (w.session k).fibers := fun k => by
        rw [(hcarries.session k).view]
        rfl
      cases e with
      | call k f m p =>
          cases hf : (s.session k).fibers f with
          | running =>
              obtain ⟨w', s'', hw, hs, hcarries'⟩ :=
                wire_call hexact hwire hrefines hcarries (hfibers k ▸ hf) m p
              obtain rfl := Result.next.inj (hs.symm.trans hstep)
              exact ⟨w', .step h w w' (WireEvent.call k f m p) hwired trivial hw, hcarries'⟩
          | waiting | woken => simp [sessions, Sessions.step, hf] at hstep
      | serve k =>
          have hseen : h ++ (s.see (.serve k)).toList = h := List.append_nil h
          rw [hseen]
          exact server_message hexact hwire hplain hwired hrefines hcarries hstep
      | receive k =>
          have hseen : h ++ (s.see (.receive k)).toList = h := List.append_nil h
          rw [hseen]
          exact client_message hwired hrefines hcarries hstep
      | wake k f =>
          cases hf : (s.session k).fibers f with
          | woken m v =>
              obtain ⟨w', s'', hw, hs, hcarries', hsee⟩ := wire_wake hcarries (hfibers k ▸ hf)
              obtain rfl := Result.next.inj (hs.symm.trans hstep)
              rw [← hsee]
              exact ⟨w', .step h w w' _ hwired trivial hw, hcarries'⟩
          | running | waiting => simp [sessions, Sessions.step, hf] at hstep

/-- Over byte streams, too, the clients see an object that performs their operations one after the
other, each between its call and its answer. -/
theorem wired_linearizable (hexact : ExactNumerals) (hwire : I.OverWire)
    (hplain : impl.PlainErrors)
    (htrace : Trace (wired impl world) (fun _ _ => True) Wired.see h w)
    (hcalls : ∀ k, callsBy k h ≤ 2 ^ 32) :
    ∃ es, Atomic.Linearizes impl.apply world w.world h es := by
  obtain ⟨s, htrace, hcarries⟩ := wired_trace hexact hwire hplain htrace hcalls
  obtain ⟨o, htrace, hworld, -⟩ := trace_refines htrace hcalls
  obtain ⟨es, hlin, -⟩ := Atomic.trace_linearizes htrace
  rw [← hworld, hcarries.world] at hlin
  exact ⟨es, hlin⟩

omit [Platform] in
theorem switch_wired_linearizable : letI := Platform.exact true
    ∃ (w : Wired switchInterface Bool Unit Bool) (es : List (Atomic.Event _ _ _)),
      Atomic.Linearizes switch.apply true w.world overlappingFlips es := by
  let _ := Platform.exact true
  have hcalls : ∀ k, callsBy k overlappingFlips ≤ 2 ^ 32 := fun _ =>
    List.countP_le_length.trans (by decide)
  obtain ⟨-, s, -, -, hsessions⟩ := switch_overlapped
  obtain ⟨w, htrace, -⟩ :=
    sessions_trace (fun _ => rfl) switch_over_wire switch_plain_errors hsessions hcalls
  exact ⟨w, wired_linearizable (fun _ => rfl) switch_over_wire switch_plain_errors htrace hcalls⟩

omit [Platform] in
/-- Both fibers wait, a request is on its way, and a response. -/
theorem switch_wired : letI := Platform.exact true
    ∃ w : Wired switchInterface Bool Unit Bool,
      Trace (wired switch true) (fun _ _ => True) Wired.see (overlappingFlips.take 2) w ∧
      ∀ f, (w.session ()).fibers f = .waiting () := by
  let _ := Platform.exact true
  obtain ⟨s, -, hsessions, hwaiting, -⟩ := switch_overlapped
  obtain ⟨w, htrace, hcarries⟩ := sessions_trace (fun _ => rfl) switch_over_wire
    switch_plain_errors hsessions fun _ => List.countP_le_length.trans (by decide)
  refine ⟨w, htrace, fun f => ?_⟩
  have hf := hwaiting f
  rwa [(hcarries.session ()).view] at hf

/-- Nothing goes wrong between the parties: no loop is left, no depth leaves its range, no promise
is gone when its response arrives, and every call of the printer and of `on_receive` returns. -/
theorem wired_safe (hexact : ExactNumerals) (hwire : I.OverWire) (hplain : impl.PlainErrors)
    (htrace : Trace (wired impl world) (fun _ _ => True) Wired.see h w)
    (hcalls : ∀ k, callsBy k h ≤ 2 ^ 32) :
    (∀ e, w.step e ≠ .undefined) ∧
      ∀ k, (w.session k).clientReads = true ∧ (w.session k).serverReads = true := by
  obtain ⟨s, htrace, hcarries⟩ := wired_trace hexact hwire hplain htrace hcalls
  obtain ⟨o, -, hrefines⟩ := trace_refines htrace hcalls
  refine ⟨fun e hundefined => ?_, fun k => ?_⟩
  · obtain himpossible | ⟨w', s', hw, -⟩ := wire_step hexact hwire hplain hrefines hcarries e
    · cases himpossible.symm.trans hundefined
    · cases hw.symm.trans hundefined
  · obtain ⟨asked, answered, hlinked⟩ := hrefines.2 k
    have hreads := hlinked.reads
    rwa [(hcarries.session k).view] at hreads

omit [Platform] in
theorem switch_wired_safe : letI := Platform.exact true
    ∃ w : Wired switchInterface Bool Unit Bool, (∀ f, (w.session ()).fibers f = .waiting ()) ∧
      (∀ e, w.step e ≠ .undefined) ∧
      ∀ k, (w.session k).clientReads = true ∧ (w.session k).serverReads = true := by
  let _ := Platform.exact true
  obtain ⟨w, htrace, hwaiting⟩ := switch_wired
  exact ⟨w, hwaiting, wired_safe (fun _ => rfl) switch_over_wire switch_plain_errors htrace
    fun _ => List.countP_le_length.trans (by decide)⟩

/-! ## Nothing is lost -/

/-- The bytes carry the messages of sessions with an object. -/
def Wired.Refines (impl : Implementation I σ) (w : Wired I σ κ φ) : Prop :=
  ∃ (s : Sessions I σ κ φ) (o : Atomic.Object (κ × φ) I.Op I.Answer σ),
    Json.Refines impl s o ∧ w.Carries s

/-- The server takes the bytes that are on their way. -/
theorem server_bytes (hexact : ExactNumerals) (hwire : I.OverWire) (hplain : impl.PlainErrors)
    (world : σ) {k : κ} (bytes : Text) (hrefines : w.Refines impl)
    (hbytes : (w.session k).requests.bytes = bytes) :
    ∃ w' : Wired I σ κ φ,
      Path (wired impl world) w (List.replicate bytes.length (.serverByte k)) w' ∧
      w'.Refines impl ∧ (w'.session k).requests.bytes = [] ∧
      (w'.session k).fibers = (w.session k).fibers := by
  induction bytes generalizing w with
  | nil => exact ⟨w, .nil w, hrefines, hbytes, rfl⟩
  | cons c bytes ih =>
      obtain ⟨s, o, hrefines, hcarries⟩ := hrefines
      obtain ⟨w', s', hw, hs, hcarries', hbytes', hfibers⟩ :=
        wire_server_byte hexact hwire hplain hrefines hcarries hbytes
      have hrefines' : w'.Refines impl := by
        obtain rfl | hs := hs
        · exact ⟨s', o, hrefines, hcarries'⟩
        · have hmatched : Matched impl world s (.serve k) s' o := matched_serve hrefines hs
          obtain ⟨-, o', -, -, hrefines'⟩ := hmatched
          exact ⟨s', o', hrefines', hcarries'⟩
      obtain ⟨w'', hpath, hrefines'', hempty, hsame⟩ := ih hrefines' hbytes'
      exact ⟨w'', .cons _ _ _ _ _ hw hpath, hrefines'', hempty, hsame.trans hfibers⟩

/-- The client takes the bytes that are on their way. -/
theorem client_bytes (impl : Implementation I σ) (world : σ) {k : κ} (bytes : Text)
    (hrefines : w.Refines impl) (hempty : (w.session k).requests.bytes = [])
    (hbytes : (w.session k).responses.bytes = bytes) :
    ∃ w' : Wired I σ κ φ,
      Path (wired impl world) w (List.replicate bytes.length (.clientByte k)) w' ∧
      w'.Refines impl ∧ (w'.session k).requests.bytes = [] ∧
      (w'.session k).responses.bytes = [] ∧
      ∀ f, ((w.session k).fibers f).Later ((w'.session k).fibers f) := by
  induction bytes generalizing w with
  | nil => exact ⟨w, .nil w, hrefines, hempty, hbytes, fun f => .refl _⟩
  | cons c bytes ih =>
      obtain ⟨s, o, hrefines, hcarries⟩ := hrefines
      obtain ⟨w', s', hw, hs, hcarries', hsame, hbytes', hlater⟩ :=
        wire_client_byte hrefines hcarries hbytes
      have hrefines' : w'.Refines impl := by
        obtain rfl | hs := hs
        · exact ⟨s', o, hrefines, hcarries'⟩
        · have hmatched : Matched impl world s (.receive k) s' o := matched_receive hrefines hs
          obtain ⟨-, o', -, -, hrefines'⟩ := hmatched
          exact ⟨s', o', hrefines', hcarries'⟩
      obtain ⟨w'', hpath, hrefines'', hempty', hnone, hlater'⟩ :=
        ih hrefines' (by rw [hsame, hempty]) hbytes'
      exact ⟨w'', .cons _ _ _ _ _ hw hpath, hrefines'', hempty', hnone,
        fun f => (hlater f).trans (hlater' f)⟩

omit [DecidableEq κ] [DecidableEq φ] in
/-- Where no byte is on its way, no fiber waits. -/
theorem no_fiber_waits {k : κ} (hrefines : w.Refines impl)
    (hrequests : (w.session k).requests.bytes = [])
    (hresponses : (w.session k).responses.bytes = []) (f : φ) (m : I.Method) :
    (w.session k).fibers f ≠ .waiting m := by
  obtain ⟨s, o, hrefines, hcarries⟩ := hrefines
  obtain ⟨asked, answered, hlinked⟩ := hrefines.2 k
  have hk := hcarries.session k
  have hasked := hlinked.requests.symm.trans (hk.requests.nil_of_empty hrequests)
  have hanswered := hlinked.responses.symm.trans (hk.responses.nil_of_empty hresponses)
  obtain rfl := List.map_eq_nil_iff.mp hasked
  obtain rfl := List.map_eq_nil_iff.mp hanswered
  intro hwaiting
  have hstate := hlinked.waits.states f
  have hf : (s.session k).fibers f = .waiting m := by
    rw [hk.view]
    exact hwaiting
  rw [hf] at hstate
  obtain ⟨t, ht, -⟩ := hstate
  cases ht

/-- No call is lost: when the bytes that are on their way have been read, every fiber that waited
has its response, and the others are as they were. -/
theorem wired_drain (hexact : ExactNumerals) (hwire : I.OverWire) (hplain : impl.PlainErrors)
    (htrace : Trace (wired impl world) (fun _ _ => True) Wired.see h w)
    (hcalls : ∀ k, callsBy k h ≤ 2 ^ 32) (k : κ) :
    ∃ (n : Nat) (w' : Wired I σ κ φ), Path (wired impl world) w
        (List.replicate (w.session k).requests.bytes.length (.serverByte k) ++
          List.replicate n (.clientByte k)) w' ∧
      ∀ f, ((w.session k).fibers f).Woken ((w'.session k).fibers f) := by
  obtain ⟨s, htrace, hcarries⟩ := wired_trace hexact hwire hplain htrace hcalls
  obtain ⟨o, -, hrefines⟩ := trace_refines htrace hcalls
  obtain ⟨w', hserver, hrefines', hempty, hfibers⟩ :=
    server_bytes hexact hwire hplain world _ ⟨s, o, hrefines, hcarries⟩ rfl
  obtain ⟨w'', hclient, hrefines'', hempty', hnone, hlater⟩ :=
    client_bytes impl world _ hrefines' hempty rfl
  refine ⟨_, w'', hserver.append hclient, fun f => ?_⟩
  have hf := hlater f
  rw [hfibers] at hf
  cases hstate : (w.session k).fibers f with
  | waiting m =>
      rw [hstate] at hf
      obtain hsame | hwoken := hf
      · exact absurd hsame (no_fiber_waits hrefines'' hempty' hnone f m)
      · exact hwoken
  | running | woken => rwa [hstate] at hf

omit [Platform] in
theorem switch_wired_drain : letI := Platform.exact true
    ∃ (w w' : Wired switchInterface Bool Unit Bool) (es : List _),
      Path (wired switch true) w es w' ∧ (∀ f, (w.session ()).fibers f = .waiting ()) ∧
      ∀ f, ∃ response, (w'.session ()).fibers f = .woken () response := by
  let _ := Platform.exact true
  obtain ⟨w, htrace, hwaiting⟩ := switch_wired
  obtain ⟨n, w', hpath, hwoken⟩ := wired_drain (fun _ => rfl) switch_over_wire switch_plain_errors
    htrace (fun _ => List.countP_le_length.trans (by decide)) ()
  refine ⟨w, w', _, hpath, hwaiting, fun f => ?_⟩
  have hfiber := hwoken f
  rwa [hwaiting] at hfiber

end Runs

end BoostRpc.Json
