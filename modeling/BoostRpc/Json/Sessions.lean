import BoostRpc.Atomic
import BoostRpc.Json.RemoteCall

/-!
# Sessions with one object

A program that serves one object to any number of clients, each over a connection of its own: the
stubs that `client` makes of an interface, `invoke` and `read_loop` of the clients, and `read_loop`
of the server with the handlers that `server` makes of the object. Any number of fibers of a client
call its stubs. The transport keeps the order of the messages and loses none.

`sessions_linearizable` says that the clients see an object that performs their operations one
after the other, each between its call and its answer. `sessions_drain` says that no call is lost.
-/

namespace BoostRpc.Json

open Lts

/-! ## Interfaces -/

/-- An interface: the methods that its reflector visits, with the types of their parameters and
results, which can be packed and unpacked. -/
structure Interface where
  Method : Type
  decEq : DecidableEq Method
  Params : Method → Type
  Result : Method → Type
  name : Method → Text
  distinct : Function.Injective name
  methods : List Method
  complete : ∀ m, m ∈ methods
  params : ∀ m, JsonCodec (Params m)
  result : ∀ m, JsonCodec (Result m)
  params_back : ∀ m slot, (params m).RoundTrips slot
  result_back : ∀ m, (result m).RoundTrips .null

instance (I : Interface) : DecidableEq I.Method := I.decEq

/-- A call of a method. -/
abbrev Interface.Op (I : Interface) := Σ m, I.Params m

/-- What it returns or throws. -/
abbrev Interface.Answer (I : Interface) := Σ m, Except Failure (I.Result m)

/-- An object that implements the interface. What it throws is caught by `on_receive`. -/
structure Implementation (I : Interface) (σ : Type) where
  func : ∀ m, I.Params m → σ → Except Exception (I.Result m) × σ
  caught : ∀ m p world, (func m p world).1 ≠ .error .foreign

/-- What a stub throws for an exception of the object. -/
def remote {ρ : Type} : Except Exception ρ → Except Failure ρ
  | .ok r => .ok r
  | .error (.std e _) => .error (remoteError e.what)
  | .error (.boost diagnostic) => .error (remoteError diagnostic)
  | .error .foreign => .error (.threw .foreign)

/-- The object as its callers see it. -/
def Implementation.apply {I : Interface} {σ : Type} (impl : Implementation I σ) (op : I.Op)
    (world : σ) : σ × I.Answer :=
  let (r, world) := impl.func op.1 op.2 world
  (world, ⟨op.1, remote r⟩)

/-! ## The parties -/

/-- What a fiber of a client does. -/
inductive FiberState (I : Interface) where
  | running
  /-- In the stub of a method, in `promise::wait`. -/
  | waiting (m : I.Method)
  /-- Its promise has a value. -/
  | woken (m : I.Method) (response : Value)

/-- Whether the promise of the fiber can still be set. -/
def FiberState.alive {I : Interface} : FiberState I → Bool
  | .waiting _ => true
  | _ => false

/-- A client, the connection that serves it, and the messages in between. -/
structure ClientSession (I : Interface) (σ φ : Type) where
  client : Connection Unit φ
  stubs : I.Method → SendFunctor
  fibers : φ → FiberState I
  /-- `read_loop` of the client has not been left. -/
  clientReads : Bool
  server : Connection σ Unit
  serverReads : Bool
  /-- On the way to the server. -/
  requests : List Value
  /-- On the way to the client. -/
  responses : List Value

/-- The sessions, which share the object. -/
structure Sessions (I : Interface) (σ κ φ : Type) where
  world : σ
  session : κ → ClientSession I σ φ

/-- What happens. -/
inductive SessionEvent (I : Interface) (κ φ : Type) where
  /-- A fiber calls a stub, up to the wait. -/
  | call (k : κ) (f : φ) (m : I.Method) (p : I.Params m)
  /-- `read_loop` of the server takes a message. -/
  | serve (k : κ)
  /-- `read_loop` of the client takes a message. -/
  | receive (k : κ)
  /-- The wait of a fiber returns, and its stub returns or throws. -/
  | wake (k : κ) (f : φ)

section Step

variable {I : Interface} {σ κ φ : Type}

/-- `server::visitor` on a method. -/
def Connection.visit (impl : Implementation I σ) (c : Connection σ Unit) (m : I.Method) :
    Connection σ Unit :=
  { c with
    methods := Function.update c.methods (I.name m)
      (some (recvFunctor (I.params m) (I.result m) (impl.func m))) }

/-- The constructor of `server`. -/
def Connection.serve (impl : Implementation I σ) (c : Connection σ Unit) : Connection σ Unit :=
  I.methods.foldl (Connection.visit impl) c

/-- The session behind the constructors of `client` and `server`, with any methods that the
connections have of their own and any number for the first request. -/
def ClientSession.Fresh (impl : Implementation I σ) (s : ClientSession I σ φ) : Prop :=
  (∀ id, s.client.pendingReq id = none) ∧ (∀ m, s.stubs m = .new (I.name m)) ∧
    (∀ f, s.fibers f = .running) ∧ s.clientReads = true ∧
    (∃ c, s.server = Connection.serve impl c) ∧ s.serverReads = true ∧ s.requests = [] ∧
    s.responses = []

variable [DecidableEq κ] [DecidableEq φ]

/-- A session goes on. -/
def Sessions.put (s : Sessions I σ κ φ) (k : κ) (session : ClientSession I σ φ) :
    Sessions I σ κ φ :=
  { s with session := Function.update s.session k session }

/-- `rpc_send_functor::operator()` up to the wait. -/
def ClientSession.call (s : ClientSession I σ φ) (f : φ) (m : I.Method) (p : I.Params m) :
    ClientSession I σ φ × Option Exception :=
  let stub := s.stubs m
  match (I.params m).pack ((stub.msg.find? (str "params")).getD .null) p with
  | .error e => (s, some e)
  | .ok v =>
      let stub := stub.setParams v
      match s.client.beginInvoke (.object stub.msg) f with
      | (client, .error e) =>
          ({ s with client, stubs := Function.update s.stubs m stub }, some e)
      | (client, .ok (id, request)) =>
          ({ s with
              client
              stubs := Function.update s.stubs m (stub.setId id)
              fibers := Function.update s.fibers f (.waiting m)
              requests := s.requests ++ [request] }, none)

variable [Platform]

/-- One event. -/
def Sessions.step (s : Sessions I σ κ φ) : SessionEvent I κ φ → Result (Sessions I σ κ φ)
  | .call k f m p =>
      match (s.session k).fibers f with
      | .running => .next (s.put k ((s.session k).call f m p).1)
      | _ => .impossible
  | .serve k =>
      let session := s.session k
      match session.serverReads, session.requests with
      | true, v :: requests =>
          -- the server calls no `invoke`
          match Connection.onReceive { session.server with world := s.world } (fun _ => false) v
          with
          | (server, .returned ⟨sent, _⟩) =>
              .next { s.put k { session with
                server
                requests
                responses := session.responses ++ sent } with world := server.world }
          | (_, .undefined) => .undefined
          -- `read_loop` is left, or `on_receive` never returns
          | (server, _) =>
              .next { s.put k { session with
                server
                requests
                serverReads := false } with world := server.world }
      | _, _ => .impossible
  | .receive k =>
      let session := s.session k
      match session.clientReads, session.responses with
      | true, v :: responses =>
          match session.client.onReceive (fun f => (session.fibers f).alive) v with
          | (_, .undefined) => .undefined
          | (client, .returned ⟨sent, some (f, response)⟩) =>
              match session.fibers f with
              | .waiting m =>
                  .next (s.put k { session with
                    client
                    responses
                    requests := session.requests ++ sent
                    fibers := Function.update session.fibers f (.woken m response) })
              | _ => .undefined
          | (client, .returned ⟨sent, none⟩) =>
              .next (s.put k { session with
                client
                responses
                requests := session.requests ++ sent })
          | (client, _) =>
              .next (s.put k { session with
                client
                responses
                clientReads := false })
      | _, _ => .impossible
  | .wake k f =>
      match (s.session k).fibers f with
      | .woken _ _ => .next (s.put k { s.session k with
          fibers := Function.update (s.session k).fibers f .running })
      | _ => .impossible

/-- The sessions with an object in this state. -/
def sessions (impl : Implementation I σ) (world : σ) :
    System (Sessions I σ κ φ) (SessionEvent I κ φ) where
  start s := s.world = world ∧ ∀ k, (s.session k).Fresh impl
  step := Sessions.step

/-- What the fibers see: that they call a stub, and what it returns or throws. -/
def Sessions.see (s : Sessions I σ κ φ) :
    SessionEvent I κ φ → Option (Atomic.Seen (κ × φ) I.Op I.Answer)
  | .call k f m p => some (.call (k, f) ⟨m, p⟩)
  | .wake k f =>
      match (s.session k).fibers f with
      | .woken m response => some (.answer (k, f) ⟨m, decodeResponse (I.result m) response⟩)
      | _ => none
  | _ => none

/-- A call takes no id that another call of the client still waits under. -/
def FreshIds (s : Sessions I σ κ φ) : SessionEvent I κ φ → Prop
  | .call k _ _ _ =>
      (s.session k).client.pendingReq (increment (s.session k).client.nextId) = none
  | _ => True

end Step

/-! ## Requests and responses -/

/-- The request for a call. -/
def Asks (I : Interface) (v : Value) (id : Int) (op : I.Op) : Prop :=
  ∃ (keys : Object) (packed : Value), v = .object keys ∧
    keys.find? (str "method") = some (.string (I.name op.1)) ∧
    keys.find? (str "id") = some (.int id) ∧ keys.find? (str "params") = some packed ∧
    (I.params op.1).unpack packed = .ok op.2

/-- The response with what a call returns or throws. -/
def Replies (I : Interface) (v : Value) (id : Int) (answer : I.Answer) : Prop :=
  ∃ keys : Object, v = .object keys ∧ keys.find? (str "method") = none ∧
    keys.find? (str "id") = some (.int id) ∧ decodeResponse (I.result answer.1) v = answer.2

/-- The response to a call that returns or throws this. -/
inductive ResponseTo (I : Interface) (id : Int) (m : I.Method) :
    Except Exception (I.Result m) → Object → Prop
  | ok (r : I.Result m) (packed : Value) :
      (I.result m).pack .null r = .ok packed → (I.result m).unpack packed = .ok r →
      ResponseTo I id m (.ok r)
        ((Object.assign [] (str "id") (.int id)).assign (str "result") packed)
  | error (e : Exception) (text : Text) (packed : Value) :
      packError ⟨some 0, some text, none⟩ = .ok packed →
      remote (.error e : Except Exception (I.Result m)) = .error (remoteError text) →
      ResponseTo I id m (.error e)
        (((Object.assign [] (str "id") (.int id)).assign (str "result") .null).assign
          (str "error") packed)

section Messages

variable {I : Interface} {σ κ φ : Type}

/-- An exception that is caught leaves its text in the response, and the stub throws it. -/
theorem remote_caught {ρ : Type} {e : Exception} (he : e ≠ .foreign) (result : Object) :
    ∃ text, catchInto result (some e) = addError result text ∧
      remote (.error e : Except Exception ρ) = .error (remoteError text) := by
  cases e with
  | std e derived => exact ⟨e.what, rfl, rfl⟩
  | boost diagnostic => exact ⟨diagnostic, rfl, rfl⟩
  | foreign => exact absurd rfl he

/-- The methods of the object are found. -/
theorem serve_methods (impl : Implementation I σ) (c : Connection σ Unit) (m : I.Method) :
    (c.serve impl).methods (I.name m) =
      some (recvFunctor (I.params m) (I.result m) (impl.func m)) := by
  have hvisit : ∀ (ms : List I.Method) (c : Connection σ Unit),
      (m ∈ ms ∨ c.methods (I.name m) =
        some (recvFunctor (I.params m) (I.result m) (impl.func m))) →
      (ms.foldl (Connection.visit impl) c).methods (I.name m) =
        some (recvFunctor (I.params m) (I.result m) (impl.func m)) := by
    intro ms
    induction ms with
    | nil => exact fun c h => h.resolve_left List.not_mem_nil
    | cons m' ms ih =>
        intro c h
        refine ih (c.visit impl m') ?_
        by_cases hm : m = m'
        · subst hm
          exact .inr (Function.update_self _ _ _)
        · refine h.imp (fun hmem => (List.mem_cons.mp hmem).resolve_left hm) fun hc => ?_
          have hname : I.name m ≠ I.name m' := fun heq => hm (I.distinct heq)
          exact (Function.update_of_ne hname _ _).trans hc
  exact hvisit I.methods c (.inl (I.complete m))

/-- The stub returns or throws what the response holds. -/
theorem ResponseTo.replies {id : Int} {m : I.Method} {r : Except Exception (I.Result m)}
    {response : Object} (h : ResponseTo I id m r response) :
    Replies I (.object response) id ⟨m, remote r⟩ := by
  obtain ⟨first_id, first_other⟩ := response_start (.int id)
  generalize hfirst : Object.assign [] (str "id") (.int id) = first at first_id first_other
  have slot_method : ∀ x, (first.assign (str "result") x).find? (str "method") = none := by
    intro x
    rw [Object.find_assign_other method_ne_result, first_other _ method_ne_id]
  have slot_id : ∀ x, (first.assign (str "result") x).find? (str "id") = some (.int id) := by
    intro x
    rw [Object.find_assign_other id_ne_result, first_id]
  cases h with
  | ok r packed _ hunpack =>
      rw [hfirst]
      refine ⟨_, rfl, slot_method _, slot_id _, ?_⟩
      have herror : (first.assign (str "result") packed).find? (str "error") = none := by
        rw [Object.find_assign_other result_ne_error.symm, first_other _ id_ne_error.symm]
      rw [decode_result _ herror (Object.find_assign_same _ _ _), hunpack]
      rfl
  | error e text packed hpacked hremote =>
      rw [hfirst]
      refine ⟨_, rfl, ?_, ?_, ?_⟩
      · rw [Object.find_assign_other method_ne_error, slot_method]
      · rw [Object.find_assign_other id_ne_error, slot_id]
      · rw [hremote]
        exact decode_error _ hpacked (Object.find_assign_same _ _ _)

variable [DecidableEq φ]

/-- A stub that is called sends the request for the call and waits. -/
theorem session_call {s : ClientSession I σ φ} {m : I.Method}
    (hname : (s.stubs m).name = I.name m) (f : φ) (p : I.Params m) :
    ∃ v, (I.params m).pack (((s.stubs m).msg.find? (str "params")).getD .null) p = .ok v ∧
      Asks I (.object ((s.stubs m).request v (increment s.client.nextId)))
        (increment s.client.nextId) ⟨m, p⟩ ∧
      s.call f m p = ({ s with
        client := { s.client with
          nextId := increment s.client.nextId
          pendingReq :=
            Function.update s.client.pendingReq (increment s.client.nextId) (some f) }
        stubs := Function.update s.stubs m
          (((s.stubs m).setParams v).setId (increment s.client.nextId))
        fibers := Function.update s.fibers f (.waiting m)
        requests := s.requests ++
          [.object ((s.stubs m).request v (increment s.client.nextId))] }, none) := by
  obtain ⟨v, hpack, hunpack⟩ :=
    I.params_back m (((s.stubs m).msg.find? (str "params")).getD .null) p
  obtain ⟨hmethod, hid, hparams⟩ := request_members (s.stubs m) v (increment s.client.nextId)
  refine ⟨v, hpack, ⟨_, v, rfl, hname ▸ hmethod, hid, hparams, hunpack⟩, ?_⟩
  simp only [ClientSession.call, hpack, begin_invoke_object]
  rfl

variable [Platform]

omit [DecidableEq φ] in
/-- The server performs the operation of a request and responds with what it returns or throws. -/
theorem request_served {impl : Implementation I σ} {c : Connection σ Unit} {v : Value} {id : Int}
    {op : I.Op} (alive : Unit → Bool) (hmethods : c.methods (I.name op.1) =
      some (recvFunctor (I.params op.1) (I.result op.1) (impl.func op.1))) (hv : Asks I v id op) :
    ∃ response : Object, c.onReceive alive v =
        ({ c with world := (impl.apply op c.world).1 }, .returned ⟨[.object response], none⟩) ∧
      ResponseTo I id op.1 (impl.func op.1 op.2 c.world).1 response := by
  obtain ⟨m, p⟩ := op
  obtain ⟨keys, packed, rfl, hmethod, hid, hparams, hunpack⟩ := hv
  have hcall := call_handler hmethods hparams ((response_start (.int id)).2 _ id_ne_result.symm)
  cases hfunc : impl.func m p c.world with
  | mk r world =>
      have happly : (impl.apply ⟨m, p⟩ c.world).1 = world := by
        simp only [Implementation.apply, hfunc]
      rw [happly]
      cases r with
      | ok r =>
          obtain ⟨packedResult, hpacked, hunpacked⟩ := I.result_back m r
          have hhandled : recvFunctor (I.params m) (I.result m) (impl.func m) packed .null
              c.world = ⟨packedResult, world, none⟩ := by
            simp only [recvFunctor, hunpack, hfunc, hpacked]
          rw [hhandled] at hcall
          exact ⟨_, answer_of_call alive hmethod hid hcall rfl,
            .ok r packedResult hpacked hunpacked⟩
      | error e =>
          have hhandled : recvFunctor (I.params m) (I.result m) (impl.func m) packed .null
              c.world = ⟨.null, world, some e⟩ := by
            simp only [recvFunctor, hunpack, hfunc]
          have he : e ≠ .foreign := by
            intro heq
            refine impl.caught m p c.world ?_
            rw [hfunc, heq]
          rw [hhandled] at hcall
          obtain ⟨text, hcatch, hremote⟩ := remote_caught (ρ := I.Result m) he
            ((Object.assign [] (str "id") (.int id)).assign (str "result") .null)
          obtain ⟨packedError, hpacked, hadd⟩ := add_error
            ((Object.assign [] (str "id") (.int id)).assign (str "result") .null) text
          rw [hadd] at hcatch
          exact ⟨_, answer_of_call alive hmethod hid hcall hcatch,
            .error e text packedError hpacked hremote⟩

end Messages

/-! ## Entries of the client -/

/-- The entries of `pending_req` are these, of fibers that are all different. -/
structure Entries {φ : Type} (pending : Int → Option φ) (entries : List (Int × φ)) : Prop where
  range : ∀ e ∈ entries, InInt e.1
  pending : ∀ id f, pending id = some f ↔ (id, f) ∈ entries
  distinct : (entries.map Prod.snd).Nodup

namespace Entries

variable {φ : Type} {pending : Int → Option φ} {entries entries' : List (Int × φ)} {id : Int}
  {f : φ}

/-- Their order does not matter. -/
theorem perm (h : Entries pending entries) (hperm : entries.Perm entries') :
    Entries pending entries' where
  range e he := h.range e (hperm.mem_iff.mpr he)
  pending id f := (h.pending id f).trans hperm.mem_iff
  distinct := (hperm.map Prod.snd).nodup_iff.mp h.distinct

/-- An entry under an id without one, for a fiber without one. -/
theorem add (h : Entries pending entries) (hrange : InInt id)
    (hfree : pending id = none) (hf : ∀ e ∈ entries, e.2 ≠ f) :
    Entries (Function.update pending id (some f)) ((id, f) :: entries) where
  range := List.forall_mem_cons.mpr ⟨hrange, h.range⟩
  pending id' g := by
    rw [List.mem_cons, Prod.mk.injEq]
    by_cases hid : id' = id
    · subst hid
      have hnone : (id', g) ∉ entries := by
        rw [← h.pending, hfree]
        nofun
      rw [Function.update_self, Option.some_inj, or_iff_left hnone, and_iff_right rfl]
      exact eq_comm
    · rw [Function.update_of_ne hid, h.pending, or_iff_right fun heq => hid heq.1]
  distinct := by
    refine List.nodup_cons.mpr ⟨fun hmem => ?_, h.distinct⟩
    obtain ⟨e, he, heq⟩ := List.mem_map.mp hmem
    exact hf e he heq

/-- An entry is taken away. -/
theorem remove (h : Entries pending ((id, f) :: entries)) :
    Entries (Function.update pending id none) entries where
  range := (List.forall_mem_cons.mp h.range).2
  pending id' g := by
    obtain ⟨hnone, -⟩ := List.nodup_cons.mp h.distinct
    by_cases hid : id' = id
    · subst hid
      rw [Function.update_self]
      refine iff_of_false nofun fun hmem => ?_
      -- another entry of this id would be one of this fiber
      have hfirst := (h.pending id' f).mpr List.mem_cons_self
      have hother := (h.pending id' g).mpr (List.mem_cons_of_mem _ hmem)
      obtain rfl := Option.some.inj (hfirst.symm.trans hother)
      exact hnone (List.mem_map.mpr ⟨_, hmem, rfl⟩)
    · rw [Function.update_of_ne hid, h.pending, List.mem_cons, Prod.mk.injEq,
        or_iff_right fun heq => hid heq.1]
  distinct := (List.nodup_cons.mp h.distinct).2

end Entries

/-! ## Calls on their way -/

/-- A message of a call, and the fiber that waits for it. -/
structure Travelling (φ : Type) where
  value : Value
  id : Int
  fiber : φ

def Travelling.entry {φ : Type} (t : Travelling φ) : Int × φ := (t.id, t.fiber)

/-- A fiber is where its call is; one that waits expects something that is on its way. -/
def FiberState.At {I : Interface} (x : FiberState I) (phase : Atomic.Phase I.Op I.Answer)
    (expects : Prop) : Prop :=
  match x with
  | .running => phase = .idle
  | .waiting _ => expects
  | .woken m v => phase = .performed ⟨m, decodeResponse (I.result m) v⟩

theorem FiberState.At.imp {I : Interface} {x : FiberState I} {phase : Atomic.Phase I.Op I.Answer}
    {p q : Prop} (h : x.At phase p) (hpq : p → q) : x.At phase q := by
  cases x with
  | running => exact h
  | waiting m => exact hpq h
  | woken m v => exact h

/-- Where the calls of the fibers are: a fiber that waits has a request or a response on its way. -/
structure Waits {I : Interface} {φ : Type} (fibers : φ → FiberState I)
    (phase : φ → Atomic.Phase I.Op I.Answer) (asked answered : List (Travelling φ)) : Prop where
  asks : ∀ t ∈ asked, ∃ op, Asks I t.value t.id op ∧ phase t.fiber = .called op ∧
    fibers t.fiber = .waiting op.1
  replies : ∀ t ∈ answered, ∃ answer, Replies I t.value t.id answer ∧
    phase t.fiber = .performed answer ∧ fibers t.fiber = .waiting answer.1
  states : ∀ f, (fibers f).At (phase f) (∃ t ∈ asked ++ answered, t.fiber = f)

namespace Waits

variable {I : Interface} {φ : Type} {fibers : φ → FiberState I}
  {phase : φ → Atomic.Phase I.Op I.Answer} {asked answered : List (Travelling φ)}
  {t : Travelling φ} {f : φ}

/-- A fiber on whose behalf something is on its way waits. -/
theorem of_mem (h : Waits fibers phase asked answered) (ht : t ∈ asked ++ answered) :
    ∃ m, fibers t.fiber = .waiting m := by
  rcases List.mem_append.mp ht with ht | ht
  · obtain ⟨op, -, -, hwaiting⟩ := h.asks t ht
    exact ⟨op.1, hwaiting⟩
  · obtain ⟨answer, -, -, hwaiting⟩ := h.replies t ht
    exact ⟨answer.1, hwaiting⟩

variable [DecidableEq φ]

/-- A fiber goes on, on whose behalf nothing else is on its way. -/
theorem update (h : Waits fibers phase asked answered) (x : FiberState I)
    (y : Atomic.Phase I.Op I.Answer) (asked' answered' : List (Travelling φ))
    (hasked : ∀ t ∈ asked', (t ∈ asked ∧ t.fiber ≠ f) ∨
      (t.fiber = f ∧ ∃ op, Asks I t.value t.id op ∧ y = .called op ∧ x = .waiting op.1))
    (hanswered : ∀ t ∈ answered', (t ∈ answered ∧ t.fiber ≠ f) ∨
      (t.fiber = f ∧ ∃ answer, Replies I t.value t.id answer ∧ y = .performed answer ∧
        x = .waiting answer.1))
    (hothers : ∀ t ∈ asked ++ answered, t.fiber ≠ f → ∃ u ∈ asked' ++ answered',
      u.fiber = t.fiber)
    (hx : x.At y (∃ t ∈ asked' ++ answered', t.fiber = f)) :
    Waits (Function.update fibers f x) (Function.update phase f y) asked' answered' where
  asks t ht := by
    rcases hasked t ht with ⟨hold, hne⟩ | ⟨rfl, op, hasks, hy, hxop⟩
    · rw [Function.update_of_ne hne, Function.update_of_ne hne]
      exact h.asks t hold
    · rw [Function.update_self, Function.update_self]
      exact ⟨op, hasks, hy, hxop⟩
  replies t ht := by
    rcases hanswered t ht with ⟨hold, hne⟩ | ⟨rfl, answer, hreplies, hy, hxanswer⟩
    · rw [Function.update_of_ne hne, Function.update_of_ne hne]
      exact h.replies t hold
    · rw [Function.update_self, Function.update_self]
      exact ⟨answer, hreplies, hy, hxanswer⟩
  states g := by
    by_cases hgf : g = f
    · subst hgf
      rw [Function.update_self, Function.update_self]
      exact hx
    · rw [Function.update_of_ne hgf, Function.update_of_ne hgf]
      refine (h.states g).imp fun hexpects => ?_
      obtain ⟨t, ht, rfl⟩ := hexpects
      exact hothers t ht hgf

/-- A fiber calls a stub. -/
theorem call (h : Waits fibers phase asked answered) (hf : fibers f = .running) {v : Value}
    {id : Int} {op : I.Op} (hv : Asks I v id op) :
    Waits (Function.update fibers f (.waiting op.1)) (Function.update phase f (.called op))
      (asked ++ [⟨v, id, f⟩]) answered := by
  have hne : ∀ t ∈ asked ++ answered, t.fiber ≠ f := by
    rintro t ht rfl
    obtain ⟨m, hwaiting⟩ := h.of_mem ht
    rw [hf] at hwaiting
    cases hwaiting
  refine h.update _ _ _ _ ?_ ?_ ?_ ?_
  · intro t ht
    rcases List.mem_append.mp ht with ht | ht
    · exact .inl ⟨ht, hne t (List.mem_append_left _ ht)⟩
    · obtain rfl := List.mem_singleton.mp ht
      exact .inr ⟨rfl, op, hv, rfl, rfl⟩
  · exact fun t ht => .inl ⟨ht, hne t (List.mem_append_right _ ht)⟩
  · intro t ht _
    rcases List.mem_append.mp ht with ht | ht
    · exact ⟨t, List.mem_append_left _ (List.mem_append_left _ ht), rfl⟩
    · exact ⟨t, List.mem_append_right _ ht, rfl⟩
  · exact ⟨_, List.mem_append_left _ (List.mem_append_right _ List.mem_cons_self), rfl⟩

/-- The request of a fiber is served. -/
theorem serve (h : Waits fibers phase (t :: asked) answered)
    (hdistinct : ∀ u ∈ asked ++ answered, u.fiber ≠ t.fiber) {op : I.Op}
    (hwaiting : fibers t.fiber = .waiting op.1) {v : Value} {answer : I.Answer}
    (hv : Replies I v t.id answer) (hm : answer.1 = op.1) :
    Waits fibers (Function.update phase t.fiber (.performed answer)) asked
      (answered ++ [⟨v, t.id, t.fiber⟩]) := by
  have hupdate := h.update (f := t.fiber) (.waiting op.1) (.performed answer) asked
    (answered ++ [⟨v, t.id, t.fiber⟩])
    (fun u hu => .inl ⟨List.mem_cons_of_mem _ hu, hdistinct u (List.mem_append_left _ hu)⟩)
    (fun u hu => by
      rcases List.mem_append.mp hu with hu | hu
      · exact .inl ⟨hu, hdistinct u (List.mem_append_right _ hu)⟩
      · obtain rfl := List.mem_singleton.mp hu
        exact .inr ⟨rfl, answer, hv, rfl, congrArg _ hm.symm⟩)
    (fun u hu hne => by
      rcases List.mem_cons.mp hu with rfl | hu
      · exact absurd rfl hne
      · refine ⟨u, ?_, rfl⟩
        rw [← List.append_assoc]
        exact List.mem_append_left _ hu)
    ⟨_, List.mem_append_right _ (List.mem_append_right _ List.mem_cons_self), rfl⟩
  rwa [← hwaiting, Function.update_eq_self] at hupdate

/-- The response for a fiber is received. -/
theorem receive (h : Waits fibers phase asked (t :: answered))
    (hdistinct : ∀ u ∈ asked ++ answered, u.fiber ≠ t.fiber) {answer : I.Answer}
    (hphase : phase t.fiber = .performed answer) (hv : Replies I t.value t.id answer) :
    Waits (Function.update fibers t.fiber (.woken answer.1 t.value)) phase asked answered := by
  have hupdate := h.update (f := t.fiber) (.woken answer.1 t.value) (.performed answer)
    asked answered
    (fun u hu => .inl ⟨hu, hdistinct u (List.mem_append_left _ hu)⟩)
    (fun u hu => .inl ⟨List.mem_cons_of_mem _ hu, hdistinct u (List.mem_append_right _ hu)⟩)
    (fun u hu hne => by
      refine ⟨u, ?_, rfl⟩
      rcases List.mem_append.mp hu with hu | hu
      · exact List.mem_append_left _ hu
      · rcases List.mem_cons.mp hu with rfl | hu
        · exact absurd rfl hne
        · exact List.mem_append_right _ hu)
    (by
      obtain ⟨keys, -, -, -, hdecode⟩ := hv
      rw [FiberState.At, hdecode])
  rwa [← hphase, Function.update_eq_self] at hupdate

/-- A stub returns. -/
theorem wake (h : Waits fibers phase asked answered) {m : I.Method} {v : Value}
    (hf : fibers f = .woken m v) :
    Waits (Function.update fibers f .running) (Function.update phase f .idle) asked answered := by
  have hne : ∀ t ∈ asked ++ answered, t.fiber ≠ f := by
    rintro t ht rfl
    obtain ⟨m', hwaiting⟩ := h.of_mem ht
    rw [hf] at hwaiting
    cases hwaiting
  exact h.update .running .idle asked answered
    (fun t ht => .inl ⟨ht, hne t (List.mem_append_left _ ht)⟩)
    (fun t ht => .inl ⟨ht, hne t (List.mem_append_right _ ht)⟩) (fun t ht _ => ⟨t, ht, rfl⟩) rfl

end Waits

/-- A session in which these requests and these responses are on their way, and where the calls
of its fibers are. -/
structure Linked {I : Interface} {σ φ : Type} (impl : Implementation I σ) (s : ClientSession I σ φ)
    (phase : φ → Atomic.Phase I.Op I.Answer) (asked answered : List (Travelling φ)) : Prop where
  requests : s.requests = asked.map Travelling.value
  responses : s.responses = answered.map Travelling.value
  waits : Waits s.fibers phase asked answered
  entries : Entries s.client.pendingReq ((asked ++ answered).map Travelling.entry)
  reads : s.clientReads = true ∧ s.serverReads = true
  stubs : ∀ m, (s.stubs m).name = I.name m
  methods : ∀ m, s.server.methods (I.name m) =
    some (recvFunctor (I.params m) (I.result m) (impl.func m))

namespace Linked

variable {I : Interface} {σ φ : Type} {impl : Implementation I σ} {s : ClientSession I σ φ}
  {phase : φ → Atomic.Phase I.Op I.Answer} {asked answered : List (Travelling φ)}
  {t : Travelling φ} {f : φ}

/-- Nothing is on its way in a fresh session. -/
theorem fresh (h : s.Fresh impl) : Linked impl s (fun _ => .idle) [] [] := by
  obtain ⟨hpending, hstubs, hfibers, hclient, ⟨c, hserver⟩, hreads, hrequests, hresponses⟩ := h
  refine ⟨hrequests, hresponses, ⟨nofun, nofun, fun f => ?_⟩, ⟨nofun, fun id f => ?_, .nil⟩,
    ⟨hclient, hreads⟩, fun m => congrArg SendFunctor.name (hstubs m),
    fun m => hserver ▸ serve_methods impl c m⟩
  · rw [hfibers]
    rfl
  · rw [hpending]
    exact iff_of_false nofun List.not_mem_nil

/-- The fibers that wait are different. -/
theorem distinct (h : Linked impl s phase asked answered) :
    ((asked ++ answered).map Travelling.fiber).Nodup := by
  have hdistinct := h.entries.distinct
  rwa [List.map_map] at hdistinct

theorem asked_distinct (h : Linked impl s phase (t :: asked) answered) :
    ∀ u ∈ asked ++ answered, u.fiber ≠ t.fiber := by
  intro u hu heq
  obtain ⟨hnone, -⟩ := List.nodup_cons.mp h.distinct
  exact hnone (List.mem_map.mpr ⟨u, hu, heq⟩)

/-- The entry of a response that is on its way, in front of the others. -/
theorem answered_first (h : Linked impl s phase asked (t :: answered)) :
    Entries s.client.pendingReq (t.entry :: (asked ++ answered).map Travelling.entry) := by
  refine h.entries.perm ?_
  rw [← List.map_cons (f := Travelling.entry)]
  exact List.perm_middle.map _

theorem answered_distinct (h : Linked impl s phase asked (t :: answered)) :
    ∀ u ∈ asked ++ answered, u.fiber ≠ t.fiber := by
  intro u hu heq
  obtain ⟨hnone, -⟩ := List.nodup_cons.mp h.answered_first.distinct
  exact hnone (List.mem_map.mpr ⟨u.entry, List.mem_map.mpr ⟨u, hu, rfl⟩, heq⟩)

variable [DecidableEq φ]

/-- A fiber calls a stub. -/
theorem call (h : Linked impl s phase asked answered) (hf : s.fibers f = .running)
    (hfree : s.client.pendingReq (increment s.client.nextId) = none) (op : I.Op) :
    ∃ t, Linked impl (s.call f op.1 op.2).1 (Function.update phase f (.called op)) (asked ++ [t])
      answered := by
  obtain ⟨v, -, hasks, hcall⟩ := session_call (h.stubs op.1) f op.2
  have hne : ∀ e ∈ (asked ++ answered).map Travelling.entry, e.2 ≠ f := by
    intro e he heq
    obtain ⟨t, ht, rfl⟩ := List.mem_map.mp he
    obtain ⟨m, hwaiting⟩ := h.waits.of_mem ht
    rw [show t.fiber = f from heq, hf] at hwaiting
    cases hwaiting
  let t : Travelling φ := ⟨.object ((s.stubs op.1).request v (increment s.client.nextId)),
    increment s.client.nextId, f⟩
  refine ⟨t, ?_⟩
  rw [hcall]
  refine ⟨?_, h.responses, h.waits.call hf hasks, ?_, h.reads, fun m => ?_, h.methods⟩
  · rw [List.map_append, ← h.requests]
    rfl
  · have hperm : (t :: (asked ++ answered)).Perm (asked ++ [t] ++ answered) := by
      rw [List.append_assoc]
      exact List.perm_middle.symm
    exact (h.entries.add (increment_range _) hfree hne).perm (hperm.map Travelling.entry)
  · show (Function.update s.stubs op.1 _ m).name = _
    by_cases hm : m = op.1
    · subst hm
      rw [Function.update_self]
      exact h.stubs op.1
    · rw [Function.update_of_ne hm, h.stubs]

variable [Platform]

omit [DecidableEq φ] in
/-- The server finds the request and replies. -/
theorem served (h : Linked impl s phase (t :: asked) answered) (world : σ) :
    ∃ (op : I.Op) (response : Object), phase t.fiber = .called op ∧
      s.fibers t.fiber = .waiting op.1 ∧
      ResponseTo I t.id op.1 (impl.func op.1 op.2 world).1 response ∧
      Connection.onReceive { s.server with world } (fun _ => false) t.value =
        ({ s.server with world := (impl.apply op world).1 },
          .returned ⟨[.object response], none⟩) := by
  obtain ⟨op, hasks, hphase, hwaiting⟩ := h.waits.asks t List.mem_cons_self
  obtain ⟨response, hserved, hresponse⟩ :=
    request_served (c := { s.server with world }) (fun _ => false) (h.methods op.1) hasks
  exact ⟨op, response, hphase, hwaiting, hresponse, hserved⟩

omit [Platform] in
/-- The session behind a request that has been served. -/
theorem serve (h : Linked impl s phase (t :: asked) answered) {op : I.Op}
    (hwaiting : s.fibers t.fiber = .waiting op.1) {response : Value} {answer : I.Answer}
    (hreplies : Replies I response t.id answer) (hm : answer.1 = op.1) (world : σ) :
    Linked impl { s with
        server := { s.server with world }
        requests := asked.map Travelling.value
        responses := s.responses ++ [response] }
      (Function.update phase t.fiber (.performed answer)) asked
      (answered ++ [⟨response, t.id, t.fiber⟩]) := by
  refine ⟨rfl, ?_, h.waits.serve h.asked_distinct hwaiting hreplies hm, ?_, h.reads, h.stubs,
    h.methods⟩
  · rw [List.map_append, ← h.responses]
    rfl
  · refine h.entries.perm ?_
    have hentries : List.map Travelling.entry (asked ++ (answered ++ [⟨response, t.id, t.fiber⟩])) =
        List.map Travelling.entry (asked ++ answered) ++ [t.entry] := by
      rw [← List.append_assoc]
      exact List.map_append
    rw [hentries]
    exact (List.perm_append_singleton t.entry _).symm

omit [DecidableEq φ] in
/-- The client finds the fiber that waits for the response. -/
theorem received (h : Linked impl s phase asked (t :: answered)) :
    ∃ answer, phase t.fiber = .performed answer ∧ s.fibers t.fiber = .waiting answer.1 ∧
      Replies I t.value t.id answer ∧
      s.client.onReceive (fun f => (s.fibers f).alive) t.value =
        (s.client.erase t.id, .returned ⟨[], some (t.fiber, t.value)⟩) := by
  obtain ⟨answer, hreplies, hphase, hwaiting⟩ := h.waits.replies t List.mem_cons_self
  have hrange := h.answered_first.range t.entry List.mem_cons_self
  have hpending := (h.answered_first.pending t.id t.fiber).mpr List.mem_cons_self
  obtain ⟨keys, hkeys, hmethod, hid, -⟩ := id hreplies
  refine ⟨answer, hphase, hwaiting, hreplies, ?_⟩
  rw [hkeys]
  exact on_receive_matching hmethod hid hrange hpending (by rw [hwaiting]; rfl)

omit [Platform] in
/-- The session behind a response that has been received. -/
theorem receive (h : Linked impl s phase asked (t :: answered)) {answer : I.Answer}
    (hphase : phase t.fiber = .performed answer) (hreplies : Replies I t.value t.id answer) :
    Linked impl { s with
        client := s.client.erase t.id
        responses := answered.map Travelling.value
        fibers := Function.update s.fibers t.fiber (.woken answer.1 t.value) }
      phase asked answered :=
  ⟨h.requests, rfl, h.waits.receive h.answered_distinct hphase hreplies, h.answered_first.remove,
    h.reads, h.stubs, h.methods⟩

omit [Platform] in
/-- A stub returns. -/
theorem wake (h : Linked impl s phase asked answered) {m : I.Method} {v : Value}
    (hf : s.fibers f = .woken m v) :
    Linked impl { s with fibers := Function.update s.fibers f .running }
      (Function.update phase f .idle) asked answered :=
  ⟨h.requests, h.responses, h.waits.wake hf, h.entries, h.reads, h.stubs, h.methods⟩

end Linked

/-! ## Steps -/

section Steps

variable {I : Interface} {σ κ φ : Type} [DecidableEq κ] [DecidableEq φ] [Platform]
  {impl : Implementation I σ} {s s' : Sessions I σ κ φ} {k : κ}
  {phase : φ → Atomic.Phase I.Op I.Answer} {asked answered : List (Travelling φ)}
  {t : Travelling φ}

/-- The server takes the request in front, and its response is on its way. -/
theorem step_serve (h : Linked impl (s.session k) phase (t :: asked) answered) :
    ∃ (op : I.Op) (session : ClientSession I σ φ) (u : Travelling φ), phase t.fiber = .called op ∧
      s.step (.serve k) = .next { s.put k session with world := (impl.apply op s.world).1 } ∧
      session.client = (s.session k).client ∧ session.fibers = (s.session k).fibers ∧
      Linked impl session
        (Function.update phase t.fiber (.performed (impl.apply op s.world).2)) asked
        (answered ++ [u]) := by
  obtain ⟨op, response, hphase, hwaiting, hresponse, hserved⟩ := h.served s.world
  have hrequests : (s.session k).requests = t.value :: asked.map Travelling.value := h.requests
  have hreplies : Replies I (.object response) t.id (impl.apply op s.world).2 := hresponse.replies
  have hlinked := h.serve hwaiting hreplies rfl (impl.apply op s.world).1
  refine ⟨op, _, _, hphase, ?_, ?_, ?_, hlinked⟩
  · simp only [Sessions.step, h.reads.2, hrequests, hserved, Sessions.put]
  · rfl
  · rfl

/-- The client takes the response in front. -/
theorem step_receive (h : Linked impl (s.session k) phase asked (t :: answered)) :
    ∃ (m : I.Method) (session : ClientSession I σ φ), (s.session k).fibers t.fiber = .waiting m ∧
      s.step (.receive k) = .next (s.put k session) ∧
      session.client = (s.session k).client.erase t.id ∧
      session.fibers = Function.update (s.session k).fibers t.fiber (.woken m t.value) ∧
      Linked impl session phase asked answered := by
  obtain ⟨answer, hphase, hwaiting, hreplies, hreceived⟩ := h.received
  have hresponses : (s.session k).responses = t.value :: answered.map Travelling.value :=
    h.responses
  have hlinked := h.receive hphase hreplies
  refine ⟨answer.1, _, hwaiting, ?_, ?_, ?_, hlinked⟩
  · simp only [Sessions.step, h.reads.1, hresponses, hreceived, hwaiting, List.append_nil]
  · rfl
  · rfl

/-- What is served was on its way. -/
theorem Linked.asked_of_serve (h : Linked impl (s.session k) phase asked answered)
    (hstep : s.step (.serve k) = .next s') : ∃ t asked', asked = t :: asked' := by
  cases asked with
  | cons t asked => exact ⟨t, asked, rfl⟩
  | nil =>
      have hnone : (s.session k).requests = [] := h.requests
      simp [Sessions.step, hnone] at hstep

/-- What is received was on its way. -/
theorem Linked.answered_of_receive (h : Linked impl (s.session k) phase asked answered)
    (hstep : s.step (.receive k) = .next s') : ∃ t answered', answered = t :: answered' := by
  cases answered with
  | cons t answered => exact ⟨t, answered, rfl⟩
  | nil =>
      have hnone : (s.session k).responses = [] := h.responses
      simp [Sessions.step, hnone] at hstep

end Steps

/-! ## Ids -/

section Numbered

variable {φ Op R κ : Type}

/-- A call by a fiber of this client. -/
def isCallOf [DecidableEq κ] (k : κ) : Atomic.Seen (κ × φ) Op R → Bool
  | .call i _ => decide (i.1 = k)
  | .answer _ _ => false

/-- How many calls of this client are seen. -/
def callsBy [DecidableEq κ] (k : κ) (h : List (Atomic.Seen (κ × φ) Op R)) : Nat :=
  h.countP (isCallOf k)

/-- The client has numbered this many calls, from some id on. -/
def Numbered (c : Connection Unit φ) (n : Nat) : Prop :=
  ∃ first : Int, increment c.nextId = (first + n).bmod (2 ^ 32) ∧
    ∀ id f, c.pendingReq id = some f → ∃ i : Nat, i < n ∧ id = (first + i).bmod (2 ^ 32)

/-- Fewer numbers than ids do not meet again. -/
theorem bmod_ne {first : Int} {i n : Nat} (hi : i < n) (hn : n < 2 ^ 32) :
    (first + n).bmod (2 ^ 32) ≠ (first + i).bmod (2 ^ 32) := by
  intro heq
  have hdvd := Int.dvd_of_bmod_eq_zero (Int.bmod_eq_bmod_iff_bmod_sub_eq_zero.mp heq)
  omega

namespace Numbered

variable {c : Connection Unit φ} {n : Nat}

theorem start (hpending : ∀ id, c.pendingReq id = none) : Numbered c 0 := by
  refine ⟨c.nextId + 1, by rw [Int.natCast_zero, Int.add_zero]; rfl, fun id f hf => ?_⟩
  rw [hpending] at hf
  cases hf

/-- No call waits under the next id. -/
theorem free (h : Numbered c n) (hn : n < 2 ^ 32) :
    c.pendingReq (increment c.nextId) = none := by
  obtain ⟨first, hnext, hpending⟩ := h
  cases hf : c.pendingReq (increment c.nextId) with
  | none => rfl
  | some f =>
      obtain ⟨i, hi, heq⟩ := hpending _ f hf
      exact absurd (hnext.symm.trans heq) (bmod_ne hi hn)

/-- A call takes the next number. -/
theorem call (h : Numbered c n) (f : φ) :
    Numbered { c with
      nextId := increment c.nextId
      pendingReq := Function.update c.pendingReq (increment c.nextId) (some f) } (n + 1) := by
  obtain ⟨first, hnext, hpending⟩ := h
  refine ⟨first, ?_, fun id g hg => ?_⟩
  · rw [increment, hnext, Int.bmod_add_bmod, Int.natCast_add, Int.add_assoc]
    rfl
  · by_cases hid : id = increment c.nextId
    · exact ⟨n, Nat.lt_succ_self n, hid.trans hnext⟩
    · have hold : c.pendingReq id = some g := (Function.update_of_ne hid _ _).symm.trans hg
      obtain ⟨i, hi, heq⟩ := hpending id g hold
      exact ⟨i, Nat.lt_succ_of_lt hi, heq⟩

/-- A response that is received leaves the other ids as they are. -/
theorem erase (h : Numbered c n) (id : Int) : Numbered (c.erase id) n := by
  obtain ⟨first, hnext, hpending⟩ := h
  refine ⟨first, hnext, fun id' f hf => ?_⟩
  by_cases hid : id' = id
  · subst hid
    cases (Function.update_self _ _ _).symm.trans hf
  · exact hpending id' f ((Function.update_of_ne hid _ _).symm.trans hf)

end Numbered

end Numbered

/-! ## The sessions simulate the object -/

section Refinement

variable {I : Interface} {σ κ φ : Type} [DecidableEq κ] [DecidableEq φ] {impl : Implementation I σ}

/-- The sessions and the object that their clients see. -/
def Refines (impl : Implementation I σ) (s : Sessions I σ κ φ)
    (o : Atomic.Object (κ × φ) I.Op I.Answer σ) : Prop :=
  s.world = o.state ∧
    ∀ k, ∃ asked answered, Linked impl (s.session k) (fun f => o.phase (k, f)) asked answered

omit [DecidableEq φ] in
/-- A step of one session leaves the others alone. -/
theorem Refines.put {s s' : Sessions I σ κ φ} {o o' : Atomic.Object (κ × φ) I.Op I.Answer σ}
    (h : Refines impl s o) (hworld : s'.world = o'.state) {k : κ} {session : ClientSession I σ φ}
    (hsession : s'.session = Function.update s.session k session)
    {asked answered : List (Travelling φ)}
    (hlinked : Linked impl session (fun f => o'.phase (k, f)) asked answered)
    (hphase : ∀ k' f, k' ≠ k → o'.phase (k', f) = o.phase (k', f)) : Refines impl s' o' := by
  refine ⟨hworld, fun k' => ?_⟩
  rw [hsession]
  by_cases hk : k' = k
  · subst hk
    rw [Function.update_self]
    exact ⟨asked, answered, hlinked⟩
  · obtain ⟨asked', answered', hother⟩ := h.2 k'
    refine ⟨asked', answered', ?_⟩
    simp only [Function.update_of_ne hk, hphase _ _ hk]
    exact hother

/-- The phases of the fibers of one client, of which one goes on. -/
theorem update_phase (phase : κ × φ → Atomic.Phase I.Op I.Answer) (k : κ) (f : φ)
    (p : Atomic.Phase I.Op I.Answer) :
    (fun g => Function.update phase (k, f) p (k, g)) =
      Function.update (fun g => phase (k, g)) f p := by
  funext g
  by_cases hg : g = f
  · subst hg
    rw [Function.update_self, Function.update_self]
  · have hne : (k, g) ≠ (k, f) := fun heq => hg (congrArg Prod.snd heq)
    rw [Function.update_of_ne hne, Function.update_of_ne hg]

theorem update_phase_other (phase : κ × φ → Atomic.Phase I.Op I.Answer) {k k' : κ} (f g : φ)
    (p : Atomic.Phase I.Op I.Answer) (h : k' ≠ k) :
    Function.update phase (k, f) p (k', g) = phase (k', g) :=
  Function.update_of_ne (fun heq => h (congrArg Prod.fst heq)) _ _

variable [Platform]

/-- A step of the sessions is matched by these steps of the object. -/
def Matched (impl : Implementation I σ) (world : σ) (s : Sessions I σ κ φ)
    (e : SessionEvent I κ φ) (s' : Sessions I σ κ φ) (o : Atomic.Object (κ × φ) I.Op I.Answer σ) :
    Prop :=
  ∃ acts o', Path (Atomic.object impl.apply world) o acts o' ∧
    sees (Atomic.object impl.apply world) Atomic.see o acts = (s.see e).toList ∧ Refines impl s' o'

variable {world : σ} {s s' : Sessions I σ κ φ} {o : Atomic.Object (κ × φ) I.Op I.Answer σ} {k : κ}
  {f : φ}

omit [Platform] in
theorem matched_call (h : Refines impl s o) (hf : (s.session k).fibers f = .running)
    (hfree : (s.session k).client.pendingReq (increment (s.session k).client.nextId) = none)
    (op : I.Op) :
    Matched impl world s (.call k f op.1 op.2) (s.put k ((s.session k).call f op.1 op.2).1) o := by
  obtain ⟨asked, answered, hlinked⟩ := h.2 k
  obtain ⟨t, hcalled⟩ := hlinked.call hf hfree op
  have hidle : o.phase (k, f) = .idle := by
    have hstate := hlinked.waits.states f
    rwa [hf] at hstate
  refine ⟨[.call (k, f) op], _, .single (Atomic.step_call hidle op), ?_, ?_⟩
  · simp only [sees, Atomic.step_call hidle]
    rfl
  · rw [← update_phase o.phase k f] at hcalled
    exact h.put h.1 rfl hcalled fun k' g hk => update_phase_other o.phase f g _ hk

/-- The object performs an operation where the server serves its request. -/
theorem matched_serve (h : Refines impl s o) (hstep : s.step (.serve k) = .next s') :
    Matched impl world s (.serve k) s' o := by
  obtain ⟨asked, answered, hlinked⟩ := h.2 k
  obtain ⟨t, asked, rfl⟩ := hlinked.asked_of_serve hstep
  obtain ⟨op, session, u, hphase, hserve, -, -, hlinked'⟩ := step_serve hlinked
  obtain rfl := Result.next.inj (hserve.symm.trans hstep)
  refine ⟨[.perform (k, t.fiber)], _, .single (Atomic.step_perform hphase), ?_, ?_⟩
  · simp only [sees, Atomic.step_perform hphase]
    rfl
  · rw [← update_phase o.phase k t.fiber, h.1] at hlinked'
    refine h.put ?_ rfl hlinked' fun k' g hk => update_phase_other o.phase t.fiber g _ hk
    rw [h.1]

/-- A response that is received is nothing that happens to the object. -/
theorem matched_receive (h : Refines impl s o) (hstep : s.step (.receive k) = .next s') :
    Matched impl world s (.receive k) s' o := by
  obtain ⟨asked, answered, hlinked⟩ := h.2 k
  obtain ⟨t, answered, rfl⟩ := hlinked.answered_of_receive hstep
  obtain ⟨m, session, -, hreceive, -, -, hlinked'⟩ := step_receive hlinked
  obtain rfl := Result.next.inj (hreceive.symm.trans hstep)
  exact ⟨[], o, .nil o, rfl, h.put h.1 rfl hlinked' fun _ _ _ => rfl⟩

omit [Platform] in
theorem matched_wake (h : Refines impl s o) {m : I.Method} {v : Value}
    (hf : (s.session k).fibers f = .woken m v) :
    Matched impl world s (.wake k f) (s.put k { s.session k with
      fibers := Function.update (s.session k).fibers f .running }) o := by
  obtain ⟨asked, answered, hlinked⟩ := h.2 k
  have hphase : o.phase (k, f) = .performed ⟨m, decodeResponse (I.result m) v⟩ := by
    have hstate := hlinked.waits.states f
    rwa [hf] at hstate
  refine ⟨[.answer (k, f)], _, .single (Atomic.step_answer hphase), ?_, ?_⟩
  · simp only [sees, Atomic.step_answer hphase, Atomic.see_answer hphase, Sessions.see, hf,
      List.append_nil]
  · have hlinked' := hlinked.wake hf
    rw [← update_phase o.phase k f] at hlinked'
    exact h.put h.1 rfl hlinked' fun k' g hk => update_phase_other o.phase f g _ hk

/-- The sessions simulate the object. -/
theorem sessions_simulate (impl : Implementation I σ) (world : σ) :
    Simulation (sessions impl world : System (Sessions I σ κ φ) _) FreshIds Sessions.see
      (Atomic.object impl.apply world) Atomic.see (Refines impl) := by
  constructor
  · intro s hs
    obtain ⟨rfl, hfresh⟩ := hs
    exact ⟨⟨s.world, fun _ => .idle⟩, rfl, rfl, fun k => ⟨[], [], .fresh (hfresh k)⟩⟩
  · intro s o e s' h hguard hstep
    suffices hmatched : Matched impl world s e s' o from hmatched
    cases e with
    | call k f m p =>
        cases hf : (s.session k).fibers f with
        | running =>
            simp only [sessions, Sessions.step, hf] at hstep
            obtain rfl := Result.next.inj hstep
            exact matched_call h hf hguard ⟨m, p⟩
        | waiting | woken => simp [sessions, Sessions.step, hf] at hstep
    | serve k => exact matched_serve h hstep
    | receive k => exact matched_receive h hstep
    | wake k f =>
        cases hf : (s.session k).fibers f with
        | woken m v =>
            simp only [sessions, Sessions.step, hf] at hstep
            obtain rfl := Result.next.inj hstep
            exact matched_wake h hf
        | running | waiting => simp [sessions, Sessions.step, hf] at hstep

end Refinement

/-! ## A switch -/

/-- An interface with one method. -/
def switchInterface : Interface where
  Method := Unit
  decEq := inferInstance
  Params _ := Unit
  Result _ := Bool
  name _ := str "flip"
  distinct := Function.injective_of_subsingleton _
  methods := [()]
  complete _ := List.mem_singleton.mpr rfl
  params _ := emptySequenceCodec
  result _ := boolCodec
  params_back _ := empty_sequence_round_trips
  result_back _ := bool_round_trips _

/-- A switch, which returns where it was. -/
def switch : Implementation switchInterface Bool where
  func _ _ on := (.ok on, !on)
  caught _ _ _ := nofun

/-- A client of a switch that is on, with two fibers. -/
def switchSessions : Sessions switchInterface Bool Unit Bool where
  world := true
  session _ :=
    { client := .fresh (fun _ => none) ()
      stubs := fun _ => .new (str "flip")
      fibers := fun _ => .running
      clientReads := true
      server := Connection.serve switch (.fresh (fun _ => none) true)
      serverReads := true
      requests := []
      responses := [] }

theorem switch_start [Platform] :
    Trace (sessions switch true) (fun _ _ => True) Sessions.see [] switchSessions :=
  .start _ ⟨rfl, fun _ =>
    ⟨fun _ => rfl, fun _ => rfl, fun _ => rfl, rfl, ⟨_, rfl⟩, rfl, rfl, rfl⟩⟩

/-- Both fibers flip the switch, and the one that called last gets its answer first. -/
def overlappingFlips : List (Atomic.Seen (Unit × Bool) switchInterface.Op switchInterface.Answer) :=
  [.call ((), false) ⟨(), ()⟩, .call ((), true) ⟨(), ()⟩, .answer ((), true) ⟨(), .ok false⟩,
    .answer ((), false) ⟨(), .ok true⟩]

/-- Between the calls and the answers, one request and one response are on their way. -/
theorem switch_overlapped : letI := Platform.exact true
    ∃ s t : Sessions switchInterface Bool Unit Bool,
      Trace (sessions switch true) (fun _ _ => True) Sessions.see (overlappingFlips.take 2) s ∧
      (∀ f, (s.session ()).fibers f = .waiting ()) ∧
      Trace (sessions switch true) (fun _ _ => True) Sessions.see overlappingFlips t := by
  let _ := Platform.exact true
  have hfirst := Trace.step _ _ _ (.call () false () ()) switch_start trivial rfl
  have hsecond := Trace.step _ _ _ (.call () true () ()) hfirst trivial rfl
  have hserve := Trace.step _ _ _ (.serve ()) hsecond trivial rfl
  have hreceive := Trace.step _ _ _ (.receive ()) hserve trivial rfl
  have hserve' := Trace.step _ _ _ (.serve ()) hreceive trivial rfl
  have hreceive' := Trace.step _ _ _ (.receive ()) hserve' trivial rfl
  have hwake := Trace.step _ _ _ (.wake () true) hreceive' trivial rfl
  have hwake' := Trace.step _ _ _ (.wake () false) hwake trivial rfl
  exact ⟨_, _, hserve, fun f => by cases f <;> rfl, hwake'⟩

/-- One fiber flips the switch twice. -/
def flipsInTurn : List (Atomic.Seen (Unit × Bool) switchInterface.Op switchInterface.Answer) :=
  [.call ((), true) ⟨(), ()⟩, .answer ((), true) ⟨(), .ok true⟩, .call ((), true) ⟨(), ()⟩,
    .answer ((), true) ⟨(), .ok false⟩]

theorem switch_flipped_in_turn : letI := Platform.exact true
    ∃ s : Sessions switchInterface Bool Unit Bool,
      Trace (sessions switch true) (fun _ _ => True) Sessions.see flipsInTurn s := by
  let _ := Platform.exact true
  have hcall := Trace.step _ _ _ (.call () true () ()) switch_start trivial rfl
  have hserve := Trace.step _ _ _ (.serve ()) hcall trivial rfl
  have hreceive := Trace.step _ _ _ (.receive ()) hserve trivial rfl
  have hwake := Trace.step _ _ _ (.wake () true) hreceive trivial rfl
  have hcall' := Trace.step _ _ _ (.call () true () ()) hwake trivial rfl
  have hserve' := Trace.step _ _ _ (.serve ()) hcall' trivial rfl
  have hreceive' := Trace.step _ _ _ (.receive ()) hserve' trivial rfl
  have hwake' := Trace.step _ _ _ (.wake () true) hreceive' trivial rfl
  exact ⟨_, hwake'⟩

/-! ## Runs -/

section Runs

variable {I : Interface} {σ κ φ : Type} [DecidableEq κ] [DecidableEq φ] [Platform]
  {impl : Implementation I σ} {world : σ} {s s' : Sessions I σ κ φ}
  {o : Atomic.Object (κ × φ) I.Op I.Answer σ} {h : List (Atomic.Seen (κ × φ) I.Op I.Answer)}

omit [DecidableEq φ] [Platform] in
/-- What holds of the clients holds of them when one session goes on. -/
theorem put_clients {k : κ} {session : ClientSession I σ φ} {P : κ → Connection Unit φ → Prop}
    (hothers : ∀ j, j ≠ k → P j (s.session j).client) (hk : P k session.client) (j : κ) :
    P j ((s.put k session).session j).client := by
  by_cases hj : j = k
  · subst hj
    have hsame : (s.put j session).session j = session := Function.update_self _ _ _
    rwa [hsame]
  · have hother : (s.put k session).session j = s.session j := Function.update_of_ne hj _ _
    rw [hother]
    exact hothers j hj

omit [DecidableEq φ] [Platform] in
/-- A call counts for its client. -/
theorem calls_by_call (h : List (Atomic.Seen (κ × φ) I.Op I.Answer)) (k j : κ) (f : φ) (op : I.Op) :
    callsBy j (h ++ [.call (k, f) op]) = if k = j then callsBy j h + 1 else callsBy j h := by
  rw [callsBy, List.countP_append, List.countP_singleton]
  by_cases hk : k = j
  · rw [if_pos hk, isCallOf, decide_eq_true hk]
    rfl
  · rw [if_neg hk, isCallOf, decide_eq_false hk]
    rfl

omit [DecidableEq φ] [Platform] in
/-- An answer is no call. -/
theorem calls_by_answer (h : List (Atomic.Seen (κ × φ) I.Op I.Answer)) (j : κ) (i : κ × φ)
    (answer : I.Answer) : callsBy j (h ++ [.answer i answer]) = callsBy j h := by
  rw [callsBy, List.countP_append]
  rfl

omit [DecidableEq φ] [Platform] in
theorem calls_by_mono (k : κ) (h h' : List (Atomic.Seen (κ × φ) I.Op I.Answer)) :
    callsBy k h ≤ callsBy k (h ++ h') := by
  rw [callsBy, callsBy, List.countP_append]
  exact Nat.le_add_right _ _

/-- Every call that is seen has a number. -/
theorem numbered_step (hrefines : Refines impl s o) {e : SessionEvent I κ φ}
    (hnumbered : ∀ k, Numbered (s.session k).client (callsBy k h)) (hstep : s.step e = .next s')
    (j : κ) : Numbered (s'.session j).client (callsBy j (h ++ (s.see e).toList)) := by
  cases e with
  | call k f m p =>
      obtain ⟨asked, answered, hlinked⟩ := hrefines.2 k
      obtain ⟨v, -, -, hcall⟩ := session_call (hlinked.stubs m) f p
      cases hf : (s.session k).fibers f with
      | running =>
          simp only [Sessions.step, hf] at hstep
          obtain rfl := Result.next.inj hstep
          have hseen : h ++ (s.see (.call k f m p)).toList = h ++ [.call (k, f) ⟨m, p⟩] := rfl
          rw [hseen]
          refine put_clients (P := fun j c => Numbered c (callsBy j (h ++ [_]))) ?_ ?_ j
          · intro j hj
            rw [calls_by_call, if_neg fun heq => hj heq.symm]
            exact hnumbered j
          · rw [calls_by_call, if_pos rfl, hcall]
            exact (hnumbered k).call f
      | waiting | woken => simp [Sessions.step, hf] at hstep
  | serve k =>
      obtain ⟨asked, answered, hlinked⟩ := hrefines.2 k
      obtain ⟨t, asked, rfl⟩ := hlinked.asked_of_serve hstep
      obtain ⟨op, session, u, -, hserve, hclient, -, -⟩ := step_serve hlinked
      obtain rfl := Result.next.inj (hserve.symm.trans hstep)
      have hseen : h ++ (s.see (.serve k)).toList = h := List.append_nil h
      rw [hseen]
      exact put_clients (s := s) (P := fun j c => Numbered c (callsBy j h))
        (fun j _ => hnumbered j) (hclient ▸ hnumbered k) j
  | receive k =>
      obtain ⟨asked, answered, hlinked⟩ := hrefines.2 k
      obtain ⟨t, answered, rfl⟩ := hlinked.answered_of_receive hstep
      obtain ⟨m, session, -, hreceive, hclient, -, -⟩ := step_receive hlinked
      obtain rfl := Result.next.inj (hreceive.symm.trans hstep)
      have hseen : h ++ (s.see (.receive k)).toList = h := List.append_nil h
      rw [hseen]
      exact put_clients (s := s) (P := fun j c => Numbered c (callsBy j h))
        (fun j _ => hnumbered j) (hclient ▸ (hnumbered k).erase t.id) j
  | wake k f =>
      cases hf : (s.session k).fibers f with
      | woken m v =>
          simp only [Sessions.step, hf] at hstep
          obtain rfl := Result.next.inj hstep
          simp only [Sessions.see, hf, Option.toList_some, calls_by_answer]
          refine put_clients (P := fun j c => Numbered c (callsBy j h)) ?_ ?_ j
          · exact fun j _ => hnumbered j
          · exact hnumbered k
      | running | waiting => simp [Sessions.step, hf] at hstep

/-- No id is taken twice in a run in which no client makes more calls than there are ids. -/
theorem trace_fresh (htrace : Trace (sessions impl world) (fun _ _ => True) Sessions.see h s)
    (hcalls : ∀ k, callsBy k h ≤ 2 ^ 32) :
    Trace (sessions impl world) FreshIds Sessions.see h s ∧
      ∀ k, Numbered (s.session k).client (callsBy k h) := by
  induction htrace with
  | start s hs => exact ⟨.start s hs, fun k => .start (hs.2 k).1⟩
  | step h s s' e _ _ hstep ih =>
      obtain ⟨htrace, hnumbered⟩ := ih fun k => (calls_by_mono k h _).trans (hcalls k)
      obtain ⟨o, -, hrefines⟩ := (sessions_simulate impl world).trace htrace
      have hfresh : FreshIds s e := by
        cases e with
        | call k f m p =>
            have hmany := hcalls k
            rw [Sessions.see, Option.toList_some, calls_by_call, if_pos rfl] at hmany
            exact (hnumbered k).free hmany
        | serve | receive | wake => trivial
      exact ⟨.step h s s' e htrace hfresh hstep, numbered_step hrefines hnumbered hstep⟩

/-- The state behind a run is that of sessions with an object. -/
theorem trace_refines (htrace : Trace (sessions impl world) (fun _ _ => True) Sessions.see h s)
    (hcalls : ∀ k, callsBy k h ≤ 2 ^ 32) :
    ∃ o, Trace (Atomic.object impl.apply world) (fun _ _ => True) Atomic.see h o ∧
      Refines impl s o :=
  (sessions_simulate impl world).trace (trace_fresh htrace hcalls).1

/-- The clients see an object that performs their operations one after the other, each between its
call and its answer. -/
theorem sessions_linearizable
    (htrace : Trace (sessions impl world) (fun _ _ => True) Sessions.see h s)
    (hcalls : ∀ k, callsBy k h ≤ 2 ^ 32) :
    ∃ es, Atomic.Linearizes impl.apply world s.world h es := by
  obtain ⟨o, htrace, hworld, -⟩ := trace_refines htrace hcalls
  obtain ⟨es, hlin, -⟩ := Atomic.trace_linearizes htrace
  exact ⟨es, hworld ▸ hlin⟩

omit [Platform] in
theorem switch_linearizable : letI := Platform.exact true
    ∃ (s : Sessions switchInterface Bool Unit Bool) (es : List (Atomic.Event _ _ _)),
      Atomic.Linearizes switch.apply true s.world overlappingFlips es := by
  let _ := Platform.exact true
  obtain ⟨-, s, -, -, htrace⟩ := switch_overlapped
  exact ⟨s, sessions_linearizable htrace fun _ => List.countP_le_length.trans (by decide)⟩

/-- A fiber that is alone with the object sees it as if it were local: each answer is that of the
operation on the object as the operations before have left it. -/
theorem lone_session (htrace : Trace (sessions impl world) (fun _ _ => True) Sessions.see h s)
    (hcalls : ∀ k, callsBy k h ≤ 2 ^ 32) {i : κ × φ} (hlone : ∀ c ∈ h, c.caller = i) :
    ∃ ops, Atomic.Legal impl.apply world ops ∧
      (h = Atomic.inTurn i ops ∧ Atomic.after impl.apply world ops = s.world ∨
        ∃ op, h = Atomic.inTurn i ops ++ [.call i op] ∧
          (Atomic.after impl.apply world ops = s.world ∨
            (impl.apply op (Atomic.after impl.apply world ops)).1 = s.world)) := by
  obtain ⟨o, htrace, hworld, -⟩ := trace_refines htrace hcalls
  obtain ⟨es, hlin, -⟩ := Atomic.trace_linearizes htrace
  rw [← hworld] at hlin
  exact hlin.alone hlone

omit [Platform] in
theorem switch_lone : letI := Platform.exact true
    ∃ (s : Sessions switchInterface Bool Unit Bool) (ops : List _),
      Atomic.Legal switch.apply true ops ∧
      (flipsInTurn = Atomic.inTurn ((), true) ops ∧
          Atomic.after switch.apply true ops = s.world ∨
        ∃ op, flipsInTurn = Atomic.inTurn ((), true) ops ++ [.call ((), true) op] ∧
          (Atomic.after switch.apply true ops = s.world ∨
            (switch.apply op (Atomic.after switch.apply true ops)).1 = s.world)) := by
  let _ := Platform.exact true
  obtain ⟨s, htrace⟩ := switch_flipped_in_turn
  refine ⟨s, lone_session htrace (fun _ => List.countP_le_length.trans (by decide)) ?_⟩
  simp [flipsInTurn, Atomic.Seen.caller]

/-! ## Nothing is lost -/

/-- What becomes of a fiber when all that is on its way arrives. -/
def FiberState.Woken (x y : FiberState I) : Prop :=
  match x with
  | .waiting m => ∃ response, y = .woken m response
  | _ => y = x

/-- The server takes the requests that are on their way. -/
theorem serve_all (world : σ) {k : κ} {phase : φ → Atomic.Phase I.Op I.Answer}
    {asked answered : List (Travelling φ)}
    (hlinked : Linked impl (s.session k) phase asked answered) :
    ∃ (s' : Sessions I σ κ φ) (phase' : φ → Atomic.Phase I.Op I.Answer)
      (answered' : List (Travelling φ)),
      Path (sessions impl world) s (List.replicate asked.length (.serve k)) s' ∧
      (s'.session k).fibers = (s.session k).fibers ∧
      answered'.length = asked.length + answered.length ∧
      Linked impl (s'.session k) phase' [] answered' := by
  induction asked generalizing s phase answered with
  | nil => exact ⟨s, phase, answered, .nil s, rfl, (Nat.zero_add _).symm, hlinked⟩
  | cons t asked ih =>
      obtain ⟨op, session, u, -, hserve, -, hfibers, hlinked'⟩ := step_serve hlinked
      have hsame : ({ s.put k session with world := (impl.apply op s.world).1 } :
          Sessions I σ κ φ).session k = session := Function.update_self _ _ _
      rw [← hsame] at hlinked' hfibers
      obtain ⟨s', phase', answered', hpath, hfibers', hlength, hall⟩ := ih hlinked'
      refine ⟨s', phase', answered', .cons _ _ _ _ _ hserve hpath, hfibers'.trans hfibers, ?_,
        hall⟩
      simp only [hlength, List.length_append, List.length_cons, List.length_nil]
      omega

/-- The client takes the responses that are on their way, and the fibers wake up. -/
theorem receive_all (world : σ) {k : κ} {phase : φ → Atomic.Phase I.Op I.Answer}
    {answered : List (Travelling φ)}
    (hlinked : Linked impl (s.session k) phase [] answered) :
    ∃ s' : Sessions I σ κ φ,
      Path (sessions impl world) s (List.replicate answered.length (.receive k)) s' ∧
      ∀ f, ((s.session k).fibers f).Woken ((s'.session k).fibers f) := by
  induction answered generalizing s with
  | nil =>
      refine ⟨s, .nil s, fun f => ?_⟩
      have hstate := hlinked.waits.states f
      cases hf : (s.session k).fibers f with
      | waiting m =>
          rw [hf] at hstate
          obtain ⟨t, ht, -⟩ := hstate
          cases ht
      | running | woken => rfl
  | cons t answered ih =>
      obtain ⟨m, session, hwaiting, hreceive, -, hfibers, hlinked'⟩ := step_receive hlinked
      have hsame : (s.put k session).session k = session := Function.update_self _ _ _
      rw [← hsame] at hlinked' hfibers
      obtain ⟨s', hpath, hwoken⟩ := ih hlinked'
      refine ⟨s', .cons _ _ _ _ _ hreceive hpath, fun f => ?_⟩
      have hf := hwoken f
      rw [hfibers] at hf
      by_cases hft : f = t.fiber
      · subst hft
        rw [Function.update_self] at hf
        rw [hwaiting]
        exact ⟨t.value, hf⟩
      · rwa [Function.update_of_ne hft] at hf

/-- No call is lost: when the messages that are on their way have been taken, every fiber that
waited has its response, and the others are as they were. -/
theorem sessions_drain
    (htrace : Trace (sessions impl world) (fun _ _ => True) Sessions.see h s)
    (hcalls : ∀ k, callsBy k h ≤ 2 ^ 32) (k : κ) :
    ∃ s' : Sessions I σ κ φ, Path (sessions impl world) s
        (List.replicate (s.session k).requests.length (.serve k) ++
          List.replicate ((s.session k).requests.length + (s.session k).responses.length)
            (.receive k)) s' ∧
      ∀ f, ((s.session k).fibers f).Woken ((s'.session k).fibers f) := by
  obtain ⟨o, -, hrefines⟩ := trace_refines htrace hcalls
  obtain ⟨asked, answered, hlinked⟩ := hrefines.2 k
  obtain ⟨t, phase, answered', hserve, hfibers, hlength, hlinked'⟩ :=
    serve_all world hlinked
  obtain ⟨s', hreceive, hwoken⟩ := receive_all world hlinked'
  rw [hlength] at hreceive
  rw [hlinked.requests, hlinked.responses, List.length_map, List.length_map]
  exact ⟨s', hserve.append hreceive, fun f => hfibers ▸ hwoken f⟩

omit [Platform] in
theorem switch_drain : letI := Platform.exact true
    ∃ (s s' : Sessions switchInterface Bool Unit Bool) (es : List _),
      Path (sessions switch true) s es s' ∧ (∀ f, (s.session ()).fibers f = .waiting ()) ∧
      ∀ f, ∃ response, (s'.session ()).fibers f = .woken () response := by
  let _ := Platform.exact true
  obtain ⟨s, -, htrace, hwaiting, -⟩ := switch_overlapped
  obtain ⟨s', hpath, hwoken⟩ :=
    sessions_drain htrace (fun _ => List.countP_le_length.trans (by decide)) ()
  refine ⟨s, s', _, hpath, hwaiting, fun f => ?_⟩
  have hfiber := hwoken f
  rwa [hwaiting] at hfiber

end Runs

end BoostRpc.Json
