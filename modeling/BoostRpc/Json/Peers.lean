import BoostRpc.Json.RemoteCall
import BoostRpc.Lts

/-!
# Two peers

Two connected peers, each with a fiber in `read_loop` that runs `on_receive` inline and any number
of caller fibers. A method handler may call `invoke` on its connection before it returns, as a
signal that it emits does where the peer is connected to it. The transport keeps the order of the
messages and loses none, and every message can be written.

`acted_of_act` and `act_of_acted` say what a step of a peer is; the lemmas on `Peer.ConnectedBy`
say that the peers do what the connections of `BoostRpc.Json.Connection` do.
-/

namespace BoostRpc.Json

open Lts

/-! ## The parties -/

variable {σ : Type}

/-- The code of a fiber or of a method handler, from one point where it can be suspended to the
next: it comes to its end, or calls `invoke` on its connection, without a timeout, and goes on with
the response and the state of the program. -/
inductive Routine (σ : Type) where
  | finished (rtn : Value) (thrown : Option Exception)
  | invoke (method : Text) (params : Value) (next : Value → σ → σ × Routine σ)

/-- The fibers of a peer. -/
inductive Fiber where
  | readLoop
  | caller (n : Nat)
  deriving DecidableEq

/-- What a fiber does. -/
inductive Activity (σ : Type) where
  | running (routine : Routine σ)
  /-- In `promise::wait`. -/
  | waiting (next : Value → σ → σ × Routine σ)
  /-- Its promise has a value. -/
  | woken (response : Value) (next : Value → σ → σ × Routine σ)

/-- The id of a request. -/
abbrev Id := {n : Int // -(2 ^ 31) ≤ n ∧ n < 2 ^ 31}

/-- The response to a request. -/
structure Response where
  id : Id
  body : Object
  idMember : body.find? (str "id") = some (.int id)
  noMethod : body.find? (str "method") = none

/-- What the peers send. -/
inductive Message where
  | request (id : Id) (method : Text) (params : Value)
  | response (r : Response)

/-- Where `read_loop` is. -/
inductive ReadLoop (σ : Type) where
  | reading
  /-- In `on_receive`, in the handler for the request with this id. -/
  | handling (id : Id) (activity : Activity σ)
  /-- Left by an exception. -/
  | ended

/-- A party. -/
structure Peer (σ : Type) where
  methods : Text → Option (Value → σ → σ × Routine σ)
  pendingReq : Int → Option Fiber
  nextId : Int
  /-- What the fibers of the party share. -/
  world : σ
  loop : ReadLoop σ
  callers : Nat → Activity σ
  /-- The messages on their way to the peer. -/
  inbox : List Message

/-! ## Responses -/

/-- A response with its id alone. -/
def Response.first (id : Id) : Response where
  id
  body := Object.assign [] (str "id") (.int id)
  idMember := (response_start _).1
  noMethod := (response_start _).2 _ method_ne_id

/-- A response with a result. -/
def Response.returns (id : Id) (rtn : Value) : Response where
  id
  body := (first id).body.assign (str "result") rtn
  idMember := by rw [Object.find_assign_other id_ne_result, (first id).idMember]; rfl
  noMethod := by rw [Object.find_assign_other method_ne_result, (first id).noMethod]

/-- The `error_object` in a response. -/
def errorValue (message : Text) : Value :=
  match packError ⟨some 0, some message, none⟩ with
  | .ok v => v
  | .error _ => .null

/-- The response with an error added. -/
def Response.fail (r : Response) (message : Text) : Response where
  id := r.id
  body := r.body.assign (str "error") (errorValue message)
  idMember := by rw [Object.find_assign_other id_ne_error, r.idMember]
  noMethod := by rw [Object.find_assign_other method_ne_error, r.noMethod]

/-- The `catch` clauses of `on_receive`: the response, unless the exception goes past them. -/
def Response.caught (r : Response) : Option Exception → Option Response
  | none => some r
  | some (.std e _) => some (r.fail e.what)
  | some (.boost diagnostic) => some (r.fail diagnostic)
  | some .foreign => none

/-! ## What a party does -/

namespace Peer

/-- What a fiber does; the fiber in `read_loop` may be between two messages. -/
def activity (p : Peer σ) : Fiber → Option (Activity σ)
  | .readLoop =>
      match p.loop with
      | .handling _ activity => some activity
      | _ => none
  | .caller n => some (p.callers n)

/-- A fiber goes on. -/
def setActivity (p : Peer σ) (a : Activity σ) : Fiber → Peer σ
  | .readLoop =>
      match p.loop with
      | .handling id _ => { p with loop := .handling id a }
      | _ => p
  | .caller n => { p with callers := Function.update p.callers n a }

/-- Whether the promise of a fiber can still be set. -/
def alive (p : Peer σ) (f : Fiber) : Bool :=
  match p.activity f with
  | some (.waiting _) => true
  | _ => false

/-- The id of the next request. -/
def requestId (p : Peer σ) : Id := ⟨increment p.nextId, increment_range p.nextId⟩

/-- `invoke`, up to the wait. -/
def beginInvoke (p : Peer σ) (f : Fiber) (method : Text) (params : Value) : Peer σ × Message :=
  ({ p with
      nextId := p.requestId
      pendingReq := Function.update p.pendingReq p.requestId (some f) },
    .request p.requestId method params)

/-- `on_receive`, for a request up to the end of its handler. -/
def onReceive (p : Peer σ) : Message → Result (Peer σ × Option Message)
  | .request id method params =>
      match p.methods method with
      | some handler =>
          let (world, routine) := handler params p.world
          .next ({ p with world, loop := .handling id (.running routine) }, none)
      | none =>
          .next (p, some (.response
            ((Response.first id).fail (str "Unknown method '" ++ method ++ str "'"))))
  | .response r =>
      match p.pendingReq r.id with
      | some f =>
          match p.activity f with
          | some (.waiting next) =>
              let p := { p with pendingReq := Function.update p.pendingReq r.id none }
              .next (p.setActivity (.woken (.object r.body) next) f, none)
          -- the promise is gone
          | _ => .undefined
      | none => .next (p, none)

end Peer

/-- What can happen at a party. -/
inductive Action where
  /-- A fiber calls `invoke` and waits. -/
  | invoke (f : Fiber)
  /-- The wait of a fiber returns. -/
  | wake (f : Fiber)
  /-- The read loop takes a message. -/
  | read
  /-- The handler that the read loop runs comes to its end. -/
  | reply

/-- One step of a party: its state behind it, and what it sends. -/
def Peer.act (p : Peer σ) : Action → Result (Peer σ × Option Message)
  | .invoke f =>
      match p.activity f with
      | some (.running (.invoke method params next)) =>
          let (p, msg) := p.beginInvoke f method params
          .next (p.setActivity (.waiting next) f, some msg)
      | _ => .impossible
  | .wake f =>
      match p.activity f with
      | some (.woken response next) =>
          let (world, routine) := next response p.world
          .next ({ p with world }.setActivity (.running routine) f, none)
      | _ => .impossible
  | .read =>
      match p.loop, p.inbox with
      | .reading, msg :: inbox => { p with inbox }.onReceive msg
      | _, _ => .impossible
  | .reply =>
      match p.loop with
      | .handling id (.running (.finished rtn thrown)) =>
          match (Response.returns id rtn).caught thrown with
          | some r => .next ({ p with loop := .reading }, some (.response r))
          | none => .next ({ p with loop := .ended }, none)
      | _ => .impossible

/-! ## The system -/

/-- The two ends of a connection. -/
inductive Side where
  | left
  | right
  deriving DecidableEq

def Side.other : Side → Side
  | .left => .right
  | .right => .left

/-- Two connected peers. -/
abbrev Link (σ : Type) := Side → Peer σ

/-- Puts a message at the end of the inbox. -/
def Peer.deliver (p : Peer σ) : Option Message → Peer σ
  | some msg => { p with inbox := p.inbox ++ [msg] }
  | none => p

/-- The peers behind a step of one of them. -/
def Link.after (l : Link σ) (s : Side) (p : Peer σ) (sent : Option Message) : Link σ :=
  Function.update (Function.update l s p) s.other ((l s.other).deliver sent)

/-- A fresh peer: with any methods and any callers that do not wait yet. -/
def Peer.Fresh (p : Peer σ) : Prop :=
  p.loop = .reading ∧ p.inbox = [] ∧ (∀ id, p.pendingReq id = none) ∧
    ∀ n, ∃ routine, p.callers n = .running routine

/-- Two peers as a system. -/
def links : System (Link σ) (Side × Action) where
  start l := ∀ s, (l s).Fresh
  step l e :=
    match (l e.1).act e.2 with
    | .impossible => .impossible
    | .undefined => .undefined
    | .next (p, sent) => .next (l.after e.1 p sent)

/-! ## What a step can do -/

namespace Peer

section SetActivity

variable (p : Peer σ) (a : Activity σ) (f : Fiber)

@[simp] theorem set_activity_methods : (p.setActivity a f).methods = p.methods := by
  unfold setActivity
  split <;> [split; skip] <;> rfl

@[simp] theorem set_activity_pending : (p.setActivity a f).pendingReq = p.pendingReq := by
  unfold setActivity
  split <;> [split; skip] <;> rfl

@[simp] theorem set_activity_next_id : (p.setActivity a f).nextId = p.nextId := by
  unfold setActivity
  split <;> [split; skip] <;> rfl

@[simp] theorem set_activity_inbox : (p.setActivity a f).inbox = p.inbox := by
  unfold setActivity
  split <;> [split; skip] <;> rfl

variable {p f}

theorem set_activity_same {old : Activity σ} (h : p.activity f = some old) :
    (p.setActivity a f).activity f = some a := by
  cases f with
  | readLoop =>
      cases hloop : p.loop with
      | handling id other => simp only [setActivity, Peer.activity, hloop]
      | reading => simp [Peer.activity, hloop] at h
      | ended => simp [Peer.activity, hloop] at h
  | caller n => simp only [setActivity, Peer.activity, Function.update_self]

theorem set_activity_other {g : Fiber} (h : g ≠ f) :
    (p.setActivity a f).activity g = p.activity g := by
  cases f with
  | readLoop =>
      cases g with
      | readLoop => exact absurd rfl h
      | caller n => cases hloop : p.loop <;> simp only [setActivity, Peer.activity, hloop]
  | caller n =>
      cases g with
      | readLoop => rfl
      | caller m =>
          have hm : m ≠ n := fun hm => h (congrArg Fiber.caller hm)
          simp only [setActivity, Peer.activity, Function.update_of_ne hm]

/-- A caller that goes on leaves the loop where it is. -/
theorem set_activity_loop (h : f ≠ .readLoop) : (p.setActivity a f).loop = p.loop := by
  cases f with
  | readLoop => exact absurd rfl h
  | caller n => rfl

end SetActivity

end Peer

/-- `Acted p a p' sent` says what the step `a` of a party does. -/
inductive Acted (p : Peer σ) : Action → Peer σ → Option Message → Prop where
  | invoked (f : Fiber) (method : Text) (params : Value) (next : Value → σ → σ × Routine σ) :
      p.activity f = some (.running (.invoke method params next)) →
      Acted p (.invoke f)
        ({ p with
            nextId := p.requestId
            pendingReq := Function.update p.pendingReq p.requestId (some f) }.setActivity
          (.waiting next) f)
        (some (.request p.requestId method params))
  | woke (f : Fiber) (response : Value) (next : Value → σ → σ × Routine σ) :
      p.activity f = some (.woken response next) →
      Acted p (.wake f)
        ({ p with world := (next response p.world).1 }.setActivity
          (.running (next response p.world).2) f) none
  | called (id : Id) (method : Text) (params : Value) (inbox : List Message)
      (handler : Value → σ → σ × Routine σ) :
      p.loop = .reading → p.inbox = .request id method params :: inbox →
      p.methods method = some handler →
      Acted p .read
        { p with
          inbox
          world := (handler params p.world).1
          loop := .handling id (.running (handler params p.world).2) } none
  | refused (id : Id) (method : Text) (params : Value) (inbox : List Message) :
      p.loop = .reading → p.inbox = .request id method params :: inbox →
      p.methods method = none →
      Acted p .read { p with inbox } (some (.response
        ((Response.first id).fail (str "Unknown method '" ++ method ++ str "'"))))
  | resumed (r : Response) (f : Fiber) (next : Value → σ → σ × Routine σ) (inbox : List Message) :
      p.loop = .reading → p.inbox = .response r :: inbox → p.pendingReq r.id = some f →
      p.activity f = some (.waiting next) →
      Acted p .read
        ({ p with
            inbox
            pendingReq := Function.update p.pendingReq r.id none }.setActivity
          (.woken (.object r.body) next) f) none
  | ignored (r : Response) (inbox : List Message) :
      p.loop = .reading → p.inbox = .response r :: inbox → p.pendingReq r.id = none →
      Acted p .read { p with inbox } none
  | replied (id : Id) (rtn : Value) (thrown : Option Exception) (r : Response) :
      p.loop = .handling id (.running (.finished rtn thrown)) →
      (Response.returns id rtn).caught thrown = some r →
      Acted p .reply { p with loop := .reading } (some (.response r))
  | escaped (id : Id) (rtn : Value) :
      p.loop = .handling id (.running (.finished rtn (some .foreign))) →
      Acted p .reply { p with loop := .ended } none

/-- Only what is thrown past `on_receive` leaves no response. -/
theorem caught_eq_none {r : Response} {thrown : Option Exception} (h : r.caught thrown = none) :
    thrown = some .foreign := by
  cases thrown with
  | none => exact absurd h nofun
  | some e =>
      cases e with
      | std e derived => exact absurd h nofun
      | boost diagnostic => exact absurd h nofun
      | foreign => rfl

variable {p p' : Peer σ} {a : Action} {sent : Option Message}

/-- A step is one of those. -/
theorem acted_of_act (h : p.act a = .next (p', sent)) : Acted p a p' sent := by
  cases a with
  | invoke f =>
      simp only [Peer.act] at h
      split at h
      · rename_i method params next hf
        simp only [Peer.beginInvoke, Result.next.injEq, Prod.mk.injEq] at h
        obtain ⟨rfl, rfl⟩ := h
        exact .invoked f method params next hf
      · exact absurd h nofun
  | wake f =>
      simp only [Peer.act] at h
      split at h
      · rename_i response next hf
        simp only [Result.next.injEq, Prod.mk.injEq] at h
        obtain ⟨rfl, rfl⟩ := h
        exact .woke f response next hf
      · exact absurd h nofun
  | read =>
      simp only [Peer.act] at h
      split at h
      · rename_i msg inbox hloop hinbox
        cases msg with
        | request id method params =>
            simp only [Peer.onReceive] at h
            split at h
            · rename_i handler hmethod
              simp only [Result.next.injEq, Prod.mk.injEq] at h
              obtain ⟨rfl, rfl⟩ := h
              exact .called id method params inbox handler hloop hinbox hmethod
            · rename_i hmethod
              simp only [Result.next.injEq, Prod.mk.injEq] at h
              obtain ⟨rfl, rfl⟩ := h
              exact .refused id method params inbox hloop hinbox hmethod
        | response r =>
            simp only [Peer.onReceive] at h
            split at h
            · rename_i f hf
              split at h
              · rename_i next hnext
                simp only [Result.next.injEq, Prod.mk.injEq] at h
                obtain ⟨rfl, rfl⟩ := h
                exact .resumed r f next inbox hloop hinbox hf hnext
              · exact absurd h nofun
            · rename_i hf
              simp only [Result.next.injEq, Prod.mk.injEq] at h
              obtain ⟨rfl, rfl⟩ := h
              exact .ignored r inbox hloop hinbox hf
      · exact absurd h nofun
  | reply =>
      simp only [Peer.act] at h
      split at h
      · rename_i id rtn thrown hloop
        split at h
        · rename_i r hr
          simp only [Result.next.injEq, Prod.mk.injEq] at h
          obtain ⟨rfl, rfl⟩ := h
          exact .replied id rtn thrown r hloop hr
        · rename_i hr
          simp only [Result.next.injEq, Prod.mk.injEq] at h
          obtain ⟨rfl, rfl⟩ := h
          obtain rfl := caught_eq_none hr
          exact .escaped id rtn hloop
      · exact absurd h nofun

/-- Each of those is a step. -/
theorem act_of_acted (h : Acted p a p' sent) : p.act a = .next (p', sent) := by
  cases h with
  | invoked f method params next hf => simp only [Peer.act, hf, Peer.beginInvoke]
  | woke f response next hf => simp only [Peer.act, hf]
  | called id method params inbox handler hloop hinbox hmethod =>
      simp only [Peer.act, hloop, hinbox, Peer.onReceive, hmethod]
  | refused id method params inbox hloop hinbox hmethod =>
      simp only [Peer.act, hloop, hinbox, Peer.onReceive, hmethod]
  | resumed r f next inbox hloop hinbox hf hnext =>
      have hnext' : ({ p with inbox } : Peer σ).activity f = some (.waiting next) := by
        cases f <;> exact hnext
      simp only [Peer.act, hloop, hinbox, Peer.onReceive, hf]
      rw [hloop] at hnext'
      rw [hnext']
  | ignored r inbox hloop hinbox hr => simp only [Peer.act, hloop, hinbox, Peer.onReceive, hr]
  | replied id rtn thrown r hloop hr => simp only [Peer.act, hloop, hr]
  | escaped id rtn hloop => simp only [Peer.act, hloop, Response.caught]

/-! ## The parties as connections -/

/-- The message of a value that the transport hands over. -/
def Message.CarriedBy : Message → Value → Prop
  | .request id method params, v =>
      ∃ keys : Object, v = .object keys ∧ keys.find? (str "method") = some (.string method) ∧
        keys.find? (str "id") = some (.int id) ∧ keys.find? (str "params") = some params
  | .response r, v => v = .object r.body

/-- The connection of a party, whose handlers do what its routines do where these do not call
`invoke`. -/
structure Peer.ConnectedBy (p : Peer σ) (c : Connection σ Fiber) : Prop where
  pendingReq : c.pendingReq = p.pendingReq
  nextId : c.nextId = p.nextId
  world : c.world = p.world
  unknown : ∀ method, p.methods method = none → c.methods method = none
  known : ∀ method handler, p.methods method = some handler →
    ∃ h, c.methods method = some h ∧ ∀ params world world' rtn thrown,
      handler params world = (world', .finished rtn thrown) →
        h params .null world = ⟨rtn, world', thrown⟩

/-- The error that a response gets is the one that `on_receive` packs. -/
theorem add_error_fail (r : Response) (message : Text) :
    addError r.body message = .ok (r.fail message).body := rfl

theorem catch_into_caught {r r' : Response} {thrown : Option Exception}
    (h : r.caught thrown = some r') : catchInto r.body thrown = .ok r'.body := by
  cases thrown with
  | none =>
      obtain rfl := Option.some.inj h
      rfl
  | some e =>
      cases e with
      | std e derived =>
          obtain rfl := Option.some.inj h
          rfl
      | boost diagnostic =>
          obtain rfl := Option.some.inj h
          rfl
      | foreign => exact absurd h nofun

section ConnectedBy

variable {p : Peer σ} {c : Connection σ Fiber} (h : p.ConnectedBy c)
include h

/-- `invoke` with the message of a stub. -/
theorem begin_invoke_connected (stub : SendFunctor) (params : Value) (f : Fiber) :
    ∃ c' v, c.beginInvoke (.object (stub.setParams params).msg) f = (c', .ok (p.requestId, v)) ∧
      (p.beginInvoke f stub.name params).1.ConnectedBy c' ∧
        (p.beginInvoke f stub.name params).2.CarriedBy v := by
  refine ⟨_, _, by rw [begin_invoke_object, h.nextId]; rfl, ?_, ?_⟩
  · refine ⟨?_, rfl, h.world, h.unknown, h.known⟩
    rw [h.pendingReq]
    rfl
  · exact ⟨_, rfl, request_members stub params p.requestId⟩

variable [Platform]

/-- `on_receive` of a request whose handler does not call `invoke`. -/
theorem on_receive_called {id : Id} {method : Text} {params v : Value}
    (hv : (Message.request id method params).CarriedBy v) {handler : Value → σ → σ × Routine σ}
    (hmethod : p.methods method = some handler) {world : σ} {rtn : Value}
    {thrown : Option Exception} (hrtn : handler params p.world = (world, .finished rtn thrown))
    {r : Response} (hr : (Response.returns id rtn).caught thrown = some r) :
    c.onReceive p.alive v = ({ c with world }, .returned ⟨[.object r.body], none⟩) := by
  obtain ⟨keys, rfl, hname, hid, hparams⟩ := hv
  obtain ⟨f, hf, hhandled⟩ := h.known method handler hmethod
  have hcall := call_handler hf hparams ((response_start (.int id)).2 _ id_ne_result.symm)
  rw [h.world, hhandled params _ _ _ _ hrtn] at hcall
  exact answer_of_call p.alive hname hid hcall (catch_into_caught hr)

/-- `on_receive` of a request whose handler throws what it does not catch. -/
theorem on_receive_escaped {id : Id} {method : Text} {params v : Value}
    (hv : (Message.request id method params).CarriedBy v) {handler : Value → σ → σ × Routine σ}
    (hmethod : p.methods method = some handler) {world : σ} {rtn : Value}
    (hrtn : handler params p.world = (world, .finished rtn (some .foreign))) :
    (c.onReceive p.alive v).2 = .threw .foreign := by
  obtain ⟨keys, rfl, hname, hid, hparams⟩ := hv
  obtain ⟨f, hf, hhandled⟩ := h.known method handler hmethod
  have hthrown : (f params .null c.world).thrown = some .foreign := by
    rw [h.world, hhandled params _ _ _ _ hrtn]
  rw [on_receive_request p.alive (by rw [hname]; rfl)]
  exact dispatch_throws ⟨_, f, params, hname, hf, hparams, hthrown⟩ hname hid

/-- `on_receive` of a request for a method that the party does not have. -/
theorem on_receive_refused {id : Id} {method : Text} {params v : Value}
    (hv : (Message.request id method params).CarriedBy v) (hmethod : p.methods method = none) :
    c.onReceive p.alive v = (c, .returned ⟨[.object ((Response.first id).fail
      (str "Unknown method '" ++ method ++ str "'")).body], none⟩) := by
  obtain ⟨keys, rfl, hname, hid, hparams⟩ := hv
  have hcall : c.call (.object keys) method (Response.first id).body =
      ⟨((Response.first id).fail (str "Unknown method '" ++ method ++ str "'")).body, c.world,
        none⟩ := by
    simp only [Connection.call, h.unknown method hmethod, add_error_fail]
  exact answer_of_call p.alive hname hid hcall rfl

/-- `on_receive` of a response to a request. -/
theorem on_receive_resumed {r : Response} {f : Fiber} (hf : p.pendingReq r.id = some f)
    {next : Value → σ → σ × Routine σ} (hwaiting : p.activity f = some (.waiting next)) :
    c.onReceive p.alive (.object r.body) =
        (c.erase r.id, .returned ⟨[], some (f, .object r.body)⟩) ∧
      ({ p with pendingReq := Function.update p.pendingReq r.id none } : Peer σ).ConnectedBy
        (c.erase r.id) := by
  have halive : p.alive f = true := by rw [Peer.alive, hwaiting]
  refine ⟨on_receive_matching r.noMethod r.idMember r.id.property (h.pendingReq ▸ hf) halive, ?_⟩
  refine ⟨?_, h.nextId, h.world, h.unknown, h.known⟩
  rw [← h.pendingReq]
  rfl

/-- `on_receive` of a response to a request whose promise is gone. -/
theorem on_receive_gone {r : Response} {f : Fiber} (hf : p.pendingReq r.id = some f)
    (hgone : p.alive f = false) : c.onReceive p.alive (.object r.body) = (c, .undefined) := by
  have hnumber : Double.toInt (.finite r.id) = some r.id.val := Double.to_int_of_range r.id.property
  rw [on_receive_response p.alive r.noMethod, complete_found c p.alive r.idMember]
  simp [Value.int, Value.toInt, hnumber, h.pendingReq, hf, hgone]

/-- `on_receive` of any other response. -/
theorem on_receive_ignored {r : Response} (hr : p.pendingReq r.id = none) :
    c.onReceive p.alive (.object r.body) = (c, Connection.log (.object r.body)) := by
  have hnumber : Double.toInt (.finite r.id) = some r.id.val := Double.to_int_of_range r.id.property
  rw [on_receive_response p.alive r.noMethod, complete_found c p.alive r.idMember]
  simp only [Value.int, Value.toInt, hnumber, h.pendingReq, hr]

end ConnectedBy

end BoostRpc.Json
