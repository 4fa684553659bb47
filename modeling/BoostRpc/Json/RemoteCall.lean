import BoostRpc.Json.Connection

/-!
# Remote calls

A stub, `invoke` on its connection, `on_receive` of the peer with a wrapped handler, and
`on_receive` of the caller, put together over a transport that hands values over unchanged.
`remote_call` says that this is the local call, with the exceptions that are of `std::exception`
as error objects.
-/

namespace BoostRpc.Json

/-- `rpc_send_functor`, with its mutable message. -/
structure SendFunctor where
  name : Text
  msg : Object
  /-- Whatever the earlier calls have put into the message, its method is the name. -/
  method : msg.find? (str "method") = some (.string name)

/-- The constructor of `rpc_send_functor`. -/
def SendFunctor.new (name : Text) : SendFunctor where
  name
  msg :=
    ((Object.assign [] (str "id") (.int 0)).assign (str "method") (.string name)).assign
      (str "params") (.array [])
  method := by
    rw [Object.find_assign_other (by decide), Object.find_assign_same]

/-- The member `params` of the message is packed, which leaves its method alone. -/
def SendFunctor.setParams (stub : SendFunctor) (v : Value) : SendFunctor where
  name := stub.name
  msg := stub.msg.assign (str "params") v
  method := by
    rw [Object.find_assign_other (by decide), stub.method]

/-- The message with its id, as `invoke` leaves it. -/
def SendFunctor.setId (stub : SendFunctor) (id : Int) : SendFunctor where
  name := stub.name
  msg := stub.msg.assign (str "id") (.int id)
  method := by
    rw [Object.find_assign_other (by decide), stub.method]

section

variable {π ρ σ τ ι : Type}

/-- `rpc_recv_functor` around a function that works on the world of its connection. -/
def recvFunctor (params : JsonCodec π) (result : JsonCodec ρ)
    (func : π → σ → Except Exception ρ × σ) : Handler σ := fun v slot world =>
  match params.unpack v with
  | .error e => ⟨slot, world, some e⟩
  | .ok p =>
      match func p world with
      | (.error e, world) => ⟨slot, world, some e⟩
      | (.ok r, world) =>
          match result.pack slot r with
          | .error e => ⟨slot, world, some e⟩
          | .ok v => ⟨v, world, none⟩

/-- What `rpc_send_functor` makes of the response. -/
def decodeResponse (result : JsonCodec ρ) (rtn : Value) : Except Failure ρ := do
  if ← raised (rtn.contains (str "error")) then
    let v ← raised (rtn.at (str "error"))
    let e ← unpackError v (.new 0)
    .error (.threw (.thrown (.errorObject e)))
  else if ← raised (rtn.contains (str "result")) then
    let v ← raised (rtn.at (str "result"))
    raised (result.unpack v)
  else
    .error (.threw (.thrown (.errorObject
      ⟨some 0, some (str "invalid json RPC message, missing result or error"), none⟩)))

/-- What a remote call leaves behind. -/
structure Called (ρ σ τ ι : Type) where
  stub : SendFunctor
  caller : Connection σ ι
  peer : Connection τ ι
  /-- What the stub returns or throws; `none` where it gets no response. -/
  outcome : Option (Except Failure ρ)

/-- A call of the stub, with everything that it sets in motion. Of the promises of other calls on
the two connections these are still there. -/
def SendFunctor.call [Platform] [DecidableEq ι] (stub : SendFunctor) (params : JsonCodec π)
    (result : JsonCodec ρ) (caller : Connection σ ι) (peer : Connection τ ι)
    (alive peerAlive : ι → Bool) (promise : ι) (p : π) : Called ρ σ τ ι :=
  match params.pack ((stub.msg.find? (str "params")).getD .null) p with
  | .error e => ⟨stub, caller, peer, some (.error (.threw e))⟩
  | .ok v =>
      let stub := stub.setParams v
      match caller.beginInvoke (.object stub.msg) promise with
      | (caller, .error e) => ⟨stub, caller, peer, some (.error (.threw e))⟩
      | (caller, .ok (id, request)) =>
          let stub := stub.setId id
          match peer.onReceive peerAlive request with
          | (peer, .returned ⟨[response], _⟩) =>
              match caller.onReceive (Function.update alive promise true) response with
              | (caller, .returned ⟨_, some (q, v)⟩) =>
                  -- the wait returns the value of its own promise
                  ⟨stub, caller, peer, if q = promise then some (decodeResponse result v) else none⟩
              | (caller, _) => ⟨stub, caller, peer, none⟩
          | (peer, _) => ⟨stub, caller, peer, none⟩

/-! ## The way of a call -/

/-- An id stays in the range of `int`. -/
theorem increment_range (n : Int) : InInt (increment n) := by
  have hlow := Int.le_bmod (x := n + 1) (m := 2 ^ 32) (by decide)
  have hhigh := Int.bmod_lt (x := n + 1) (m := 2 ^ 32) (by decide)
  unfold InInt increment
  constructor <;> omega

/-- `invoke` of an object comes to `send`. -/
theorem begin_invoke_object (c : Connection σ ι) (msg : Object) (promise : ι) :
    c.beginInvoke (.object msg) promise =
      ({ c with
          nextId := increment c.nextId
          pendingReq := Function.update c.pendingReq (increment c.nextId) (some promise) },
        .ok (increment c.nextId, .object (msg.assign (str "id") (.int (increment c.nextId))))) :=
  rfl

variable [Platform]

/-- A response with the id of an entry sets the promise of the entry. -/
theorem on_receive_matching {c : Connection σ ι} {alive : ι → Bool} {response : Object} {id : Int}
    {promise : ι} (hmethod : response.find? (str "method") = none)
    (hid : response.find? (str "id") = some (.int id)) (hrange : InInt id)
    (hpending : c.pendingReq id = some promise) (halive : alive promise = true) :
    c.onReceive alive (.object response) =
      (c.erase id, .returned ⟨[], some (promise, .object response)⟩) := by
  have hread := response_id_number hmethod hid
  have hint := Double.to_int_of_range hrange
  rcases on_receive_cases c alive (.object response) with
    ⟨x, id', promise', hread', hx, hpending', -, heq⟩ | ⟨x, hread', hmisread, -⟩ | hunmatched
  · obtain rfl := Option.some.inj (hread.symm.trans hread')
    obtain rfl := Option.some.inj (hint.symm.trans hx)
    obtain rfl := Option.some.inj (hpending.symm.trans hpending')
    exact heq
  · obtain rfl := Option.some.inj (hread.symm.trans hread')
    obtain ⟨promise', hpending', hdead⟩ := hmisread id hint
    obtain rfl := Option.some.inj (hpending.symm.trans hpending')
    cases halive.symm.trans hdead
  · rw [hunmatched.unknown _ id hread hint] at hpending
    cases hpending

/-- The request that reaches the peer. -/
def SendFunctor.request (stub : SendFunctor) (v : Value) (id : Int) : Object :=
  ((stub.setParams v).setId id).msg

omit [Platform] in
/-- The members of the request that `on_receive` reads. -/
theorem request_members (stub : SendFunctor) (v : Value) (id : Int) :
    (stub.request v id).find? (str "method") = some (.string stub.name) ∧
      (stub.request v id).find? (str "id") = some (.int id) ∧
        (stub.request v id).find? (str "params") = some v := by
  refine ⟨((stub.setParams v).setId id).method, Object.find_assign_same _ _ _, ?_⟩
  show ((stub.msg.assign (str "params") v).assign (str "id") (.int id)).find? (str "params") = _
  rw [Object.find_assign_other params_ne_id, Object.find_assign_same]

variable [DecidableEq ι] {params : JsonCodec π} (result : JsonCodec ρ) {stub : SendFunctor}
  {caller : Connection σ ι} {peer peer' : Connection τ ι} {alive peerAlive : ι → Bool}
  (promise : ι) {p : π}

/-- The stub gets the response of the peer to its request. -/
theorem call_of_answer {v : Value}
    (hpack : params.pack ((stub.msg.find? (str "params")).getD .null) p = .ok v)
    {response : Object}
    (hanswer : peer.onReceive peerAlive (.object (stub.request v (increment caller.nextId))) =
      (peer', .returned ⟨[.object response], none⟩))
    (hmethod : response.find? (str "method") = none)
    (hid : response.find? (str "id") = some (.int (increment caller.nextId))) :
    (stub.call params result caller peer alive peerAlive promise p).outcome =
        some (decodeResponse result (.object response)) ∧
      (stub.call params result caller peer alive peerAlive promise p).peer = peer' := by
  have hreceived : Connection.onReceive { caller with
        nextId := increment caller.nextId
        pendingReq := Function.update caller.pendingReq (increment caller.nextId) (some promise) }
      (Function.update alive promise true) (.object response) = _ :=
    on_receive_matching hmethod hid (increment_range _) (Function.update_self _ _ _)
      (Function.update_self _ _ _)
  have hanswer' : peer.onReceive peerAlive (.object ((stub.setParams v).msg.assign (str "id")
      (.int (increment caller.nextId)))) = (peer', .returned ⟨[.object response], none⟩) := hanswer
  simp only [SendFunctor.call, hpack, begin_invoke_object, hanswer', hreceived, if_true, and_self]

omit [DecidableEq ι] in
/-- The peer answers a request with what its handler leaves behind. -/
theorem answer_of_call {c : Connection τ ι} (alive : ι → Bool) {keys : Object} {name : Text}
    {id : Value} (hmethod : keys.find? (str "method") = some (.string name))
    (hid : keys.find? (str "id") = some id) {attempt : Attempt τ} {response : Object}
    (hcall : c.call (.object keys) name (Object.assign [] (str "id") id) = attempt)
    (hcatch : catchInto attempt.result attempt.thrown = .ok response) :
    c.onReceive alive (.object keys) =
      ({ c with world := attempt.world }, .returned ⟨[.object response], none⟩) := by
  rw [on_receive_request alive (by rw [hmethod]; rfl)]
  simp only [Connection.dispatch, at_of_find hmethod, at_of_find hid, Value.toStdString, hcall,
    hcatch]

omit [Platform] [DecidableEq ι] in
/-- An error goes before a result. -/
theorem decode_error {response : Object} {message : Text} {v : Value}
    (hpack : packError ⟨some 0, some message, none⟩ = .ok v)
    (herror : response.find? (str "error") = some v) :
    decodeResponse result (.object response) =
      .error (.threw (.thrown (.errorObject ⟨some 0, some message, none⟩))) := by
  have hzero : InInt 0 := by decide
  obtain ⟨v', hpack', hunpack⟩ := unpack_pack_error hzero (some message) none
  obtain rfl := Except.ok.inj (hpack.symm.trans hpack')
  simp only [decodeResponse, contains_object, herror, Option.isSome_some, at_of_find herror,
    raised_ok, hunpack, bind, Except.bind, if_true]

omit [Platform] [DecidableEq ι] in
/-- Without an error the result is unpacked. -/
theorem decode_result {response : Object} {v : Value}
    (herror : response.find? (str "error") = none)
    (hresult : response.find? (str "result") = some v) :
    decodeResponse result (.object response) = raised (result.unpack v) := by
  simp only [decodeResponse, contains_object, herror, hresult, Option.isSome_none,
    Option.isSome_some, at_of_find hresult, raised_ok, bind, Except.bind, Bool.false_eq_true,
    if_false, if_true]

/-- The exception that a stub throws for an error in the response. -/
def remoteError (message : Text) : Failure :=
  .threw (.thrown (.errorObject ⟨some 0, some message, none⟩))

/-- The stub throws the error that the peer adds to a response. -/
theorem call_of_error {v packed : Value} {base : Object} {message : Text}
    (hpack : params.pack ((stub.msg.find? (str "params")).getD .null) p = .ok v)
    (hpacked : packError ⟨some 0, some message, none⟩ = .ok packed)
    (hanswer : peer.onReceive peerAlive (.object (stub.request v (increment caller.nextId))) =
      (peer', .returned ⟨[.object (base.assign (str "error") packed)], none⟩))
    (hmethod : base.find? (str "method") = none)
    (hid : base.find? (str "id") = some (.int (increment caller.nextId))) :
    (stub.call params result caller peer alive peerAlive promise p).outcome =
        some (.error (remoteError message)) ∧
      (stub.call params result caller peer alive peerAlive promise p).peer = peer' := by
  obtain ⟨houtcome, hpeer⟩ := call_of_answer result promise hpack hanswer
    (by rw [Object.find_assign_other method_ne_error, hmethod])
    (by rw [Object.find_assign_other id_ne_error, hid])
  rw [houtcome, decode_error result hpacked (Object.find_assign_same _ _ _)]
  exact ⟨rfl, hpeer⟩

/-- A remote call is the local call: it returns what the function returns, throws the text of what
the function throws, and throws for a method that the peer does not have. The world of the peer is
left as the function leaves it. -/
theorem remote_call (hparams : ∀ slot, params.RoundTrips slot) (hresult : result.RoundTrips .null) :
    (∀ func, peer.methods stub.name = some (recvFunctor params result func) →
      (∀ r world, func p peer.world = (.ok r, world) →
        (stub.call params result caller peer alive peerAlive promise p).outcome = some (.ok r) ∧
          (stub.call params result caller peer alive peerAlive promise p).peer.world = world) ∧
      (∀ e derived world, func p peer.world = (.error (.std e derived), world) →
        (stub.call params result caller peer alive peerAlive promise p).outcome =
            some (.error (remoteError e.what)) ∧
          (stub.call params result caller peer alive peerAlive promise p).peer.world = world)) ∧
    (peer.methods stub.name = none →
      (stub.call params result caller peer alive peerAlive promise p).outcome =
          some (.error (remoteError (str "Unknown method '" ++ stub.name ++ str "'"))) ∧
        (stub.call params result caller peer alive peerAlive promise p).peer.world =
          peer.world) := by
  obtain ⟨v, hpack, hunpack⟩ := hparams ((stub.msg.find? (str "params")).getD .null) p
  obtain ⟨hmethod, hid, hmember⟩ := request_members stub v (increment caller.nextId)
  obtain ⟨first_id, first_other⟩ := response_start (.int (increment caller.nextId))
  generalize hfirst : Object.assign [] (str "id") (.int (increment caller.nextId)) = first
    at first_id first_other
  have slot_method : ∀ x, (first.assign (str "result") x).find? (str "method") = none := fun x => by
    rw [Object.find_assign_other method_ne_result, first_other _ method_ne_id]
  have slot_id : ∀ x, (first.assign (str "result") x).find? (str "id") =
      some (.int (increment caller.nextId)) := fun x => by
    rw [Object.find_assign_other id_ne_result, first_id]
  refine ⟨fun func hfunc => ?_, fun hnone => ?_⟩
  · have hcall := call_handler hfunc hmember (first_other _ id_ne_result.symm)
    refine ⟨fun r world hr => ?_, fun e derived world he => ?_⟩
    · -- the handler leaves the packed result in its slot
      obtain ⟨packed, hpacked, hunpacked⟩ := hresult r
      have hhandled : recvFunctor params result func v .null peer.world =
          ⟨packed, world, none⟩ := by
        simp only [recvFunctor, hunpack, hr, hpacked]
      rw [hhandled, ← hfirst] at hcall
      have hanswer := answer_of_call peerAlive hmethod hid hcall rfl
      rw [hfirst] at hanswer
      obtain ⟨houtcome, hpeer⟩ :=
        call_of_answer result promise hpack hanswer (slot_method _) (slot_id _)
      have herror : (first.assign (str "result") packed).find? (str "error") = none := by
        rw [Object.find_assign_other result_ne_error.symm, first_other _ id_ne_error.symm]
      rw [houtcome, hpeer, decode_result result herror (Object.find_assign_same _ _ _), hunpacked]
      exact ⟨rfl, rfl⟩
    · -- the handler throws, and the slot keeps its null value
      have hhandled : recvFunctor params result func v .null peer.world =
          ⟨.null, world, some (.std e derived)⟩ := by
        simp only [recvFunctor, hunpack, he]
      rw [hhandled, ← hfirst] at hcall
      obtain ⟨packed, hpacked, hadd⟩ := add_error (first.assign (str "result") .null) e.what
      rw [← hfirst] at hadd
      have hanswer := answer_of_call peerAlive hmethod hid hcall hadd
      rw [hfirst] at hanswer
      obtain ⟨houtcome, hpeer⟩ := call_of_error result promise hpack
        hpacked hanswer (slot_method _) (slot_id _)
      rw [houtcome, hpeer]
      exact ⟨rfl, rfl⟩
  · -- the error is made in the `try` block
    obtain ⟨packed, hpacked, hadd⟩ :=
      add_error first (str "Unknown method '" ++ stub.name ++ str "'")
    have hcall : peer.call (.object (stub.request v (increment caller.nextId))) stub.name
        first = ⟨first.assign (str "error") packed, peer.world, none⟩ := by
      simp only [Connection.call, hnone, hadd]
    rw [← hfirst] at hcall
    have hanswer := answer_of_call peerAlive hmethod hid hcall rfl
    rw [hfirst] at hanswer
    obtain ⟨houtcome, hpeer⟩ := call_of_error result promise hpack
      hpacked hanswer (first_other _ method_ne_id) first_id
    rw [houtcome, hpeer]
    exact ⟨rfl, rfl⟩

end

/-- A call with one parameter of a function that keeps it and returns whether it has changed. -/
theorem remote_call_returned :
    letI := Platform.exact true
    letI peer : Connection Bool Nat := .fresh
      (fun _ => some (recvFunctor boolSequenceCodec boolCodec fun p on => (.ok (p != on), p))) true
    letI called := (SendFunctor.new (str "set")).call boolSequenceCodec boolCodec
      (.fresh (fun _ => none) () : Connection Unit Nat) peer (fun _ => true) (fun _ => true) 0 false
    called.outcome = some (.ok true) ∧ called.peer.world = false :=
  letI := Platform.exact true
  ((remote_call boolCodec 0 bool_sequence_round_trips (bool_round_trips _)).1 _ rfl).1
    true false rfl

end BoostRpc.Json
