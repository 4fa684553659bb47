import BoostRpc.Json.Printer
import BoostRpc.Json.ValueIo
import Mathlib.Logic.Function.Basic

/-!
# The JSON-RPC connection

`json::connection` up to the transport: the first half of `invoke`, up to the call of `send`, and
`on_receive`, with what it sends and which promise it sets. A promise is named by a value of the
type `ι`. It is a local variable of its call of `invoke`: the calls of `on_receive` get the promises
that are still there. The state that method handlers work on is the `world` of the connection; the
maps of the connection itself are out of their reach.

`on_receive_returns_iff` says for which messages `on_receive` returns, `one_response_iff` for
which requests the response is one of JSON-RPC 2.0.
-/

namespace BoostRpc.Json

/-- What a method handler leaves behind. -/
structure Handled (σ : Type) where
  /-- The value in the slot for the result. -/
  rtn : Value
  world : σ
  /-- The exception that it threw. -/
  thrown : Option Exception

/-- `connection::handler`, on the parameters, the slot for the result and the world. -/
abbrev Handler (σ : Type) := Value → Value → σ → Handled σ

/-- `connection_private`. -/
structure Connection (σ ι : Type) where
  methods : Text → Option (Handler σ)
  pendingReq : Int → Option ι
  nextId : Int
  world : σ

/-- What a call of `on_receive` that returns has done: the messages it sent, and the promise it
set, with the value. -/
structure Reaction (ι : Type) where
  sent : List Value
  completed : Option (ι × Value)

/-- How a call of `on_receive` ends. -/
inductive Outcome (ι : Type) where
  | returned (reaction : Reaction ι)
  | threw (e : Exception)
  /-- It never returns. -/
  | diverged
  /-- It converts an id that is no `int`, or sets a promise that is gone. -/
  | undefined

/-- `++my->next_id`. The platform is one on which the greatest `int` wraps to the least, which the
language leaves undefined. -/
def increment (n : Int) : Int := (n + 1).bmod (2 ^ 32)

/-- What the first `try` block of `on_receive` leaves behind. -/
structure Attempt (σ : Type) where
  result : Object
  world : σ
  thrown : Option Exception

/-- An `error_object` with code zero and this message, packed into the member `error`. -/
def addError (result : Object) (message : Text) : Except Exception Object := do
  let v ← packError ⟨some 0, some message, none⟩
  return result.assign (str "error") v

/-- The `catch` clauses of `on_receive`. -/
def catchInto (result : Object) : Option Exception → Except Exception Object
  | none => .ok result
  | some (.std e _) => addError result e.what
  | some (.boost diagnostic) => addError result diagnostic
  | some .foreign => .error .foreign

namespace Connection

variable {σ ι : Type}

/-- A connection as its constructor leaves it, with some methods added. -/
def fresh (methods : Text → Option (Handler σ)) (world : σ) : Connection σ ι :=
  ⟨methods, fun _ => none, 0, world⟩

/-- `connection::invoke` up to the call of `send`: the connection, and the id with the message to
send, or the exception that `msg["id"]` throws. -/
def beginInvoke (c : Connection σ ι) (msg : Value) (promise : ι) :
    Connection σ ι × Except Exception (Int × Value) :=
  let id := increment c.nextId
  match msg.assign (str "id") (.int id) with
  | .error e => ({ c with nextId := id }, .error e)
  | .ok msg =>
      ({ c with nextId := id, pendingReq := Function.update c.pendingReq id (some promise) },
        .ok (id, msg))

/-- The `catch` clause of `connection::invoke`, where it has found the entry. -/
def erase (c : Connection σ ι) (id : Int) : Connection σ ι :=
  { c with pendingReq := Function.update c.pendingReq id none }

variable [Platform]

/-- The `try` block of `on_receive`. The arguments of the handler are the member `params`, which
must be there, and the member `result`, which is made. -/
def call (c : Connection σ ι) (v : Value) (name : Text) (result : Object) : Attempt σ :=
  match c.methods name with
  | some handler =>
      match v.at (str "params") with
      | .error e =>
          ⟨if Platform.lastArgumentFirst then result.touch (str "result") else result, c.world,
            some e⟩
      | .ok params =>
          let handled := handler params ((result.find? (str "result")).getD .null) c.world
          ⟨result.assign (str "result") handled.rtn, handled.world, handled.thrown⟩
  | none =>
      match addError result (str "Unknown method '" ++ name ++ str "'") with
      | .error e => ⟨result.touch (str "error"), c.world, some e⟩
      | .ok result => ⟨result, c.world, none⟩

/-- `on_receive` of a message with a member `method`. -/
def dispatch (c : Connection σ ι) (v : Value) : Connection σ ι × Outcome ι :=
  match v.at (str "method") with
  | .error e => (c, .threw e)
  | .ok method =>
      match v.at (str "id") with
      | .error e => (c, .threw e)
      | .ok id =>
          let attempt := c.call v method.toStdString (Object.assign [] (str "id") id)
          match catchInto attempt.result attempt.thrown with
          | .error e => ({ c with world := attempt.world }, .threw e)
          | .ok result => ({ c with world := attempt.world }, .returned ⟨[.object result], none⟩)

omit [Platform] in
/-- `elog` of a message, which writes it. -/
def log (v : Value) : Outcome ι :=
  match write v false with
  | some _ => .returned ⟨[], none⟩
  | none => .diverged

omit [Platform] in
/-- `on_receive` of a message without a member `method`, where these promises are still there. -/
def complete (c : Connection σ ι) (alive : ι → Bool) (v : Value) : Connection σ ι × Outcome ι :=
  match v.contains (str "id") with
  | .error e => (c, .threw e)
  | .ok false => (c, log v)
  | .ok true =>
      match raised (v.at (str "id")) >>= Value.toInt with
      | .error (.threw e) => (c, .threw e)
      | .error _ => (c, .undefined)
      | .ok id =>
          match c.pendingReq id with
          | some promise =>
              if alive promise then (c.erase id, .returned ⟨[], some (promise, v)⟩)
              else (c, .undefined)
          | none => (c, log v)

/-- `connection::on_receive`, where these promises are still there. -/
def onReceive (c : Connection σ ι) (alive : ι → Bool) (v : Value) : Connection σ ι × Outcome ι :=
  match v.contains (str "method") with
  | .error e => (c, .threw e)
  | .ok true => c.dispatch v
  | .ok false => c.complete alive v

/-- Every exception that a handler throws derives from `std::exception` or `boost::exception`. -/
def HandlersCaught (c : Connection σ ι) : Prop :=
  ∀ name handler, c.methods name = some handler →
    ∀ params slot world, (handler params slot world).thrown ≠ some .foreign

end Connection

/-! ## The names of the members of a message -/

theorem id_ne_result : str "id" ≠ str "result" := by decide

theorem id_ne_error : str "id" ≠ str "error" := by decide

theorem result_ne_error : str "result" ≠ str "error" := by decide

theorem method_ne_id : str "method" ≠ str "id" := by decide

theorem method_ne_result : str "method" ≠ str "result" := by decide

theorem method_ne_error : str "method" ≠ str "error" := by decide

theorem params_ne_id : str "params" ≠ str "id" := by decide

/-! ## The branches of `on_receive` -/

/-- Packing an error object whose code is set does not throw. -/
theorem add_error (result : Object) (message : Text) :
    ∃ v, packError ⟨some 0, some message, none⟩ = .ok v ∧
      addError result message = .ok (result.assign (str "error") v) :=
  ⟨_, rfl, rfl⟩

/-- A caught exception leaves an error in the response. -/
theorem catch_into_some {e : Exception} (he : e ≠ .foreign) (result : Object) :
    ∃ v, catchInto result (some e) = .ok (result.assign (str "error") v) := by
  cases e with
  | std e derived => exact ⟨_, rfl⟩
  | boost diagnostic => exact ⟨_, rfl⟩
  | foreign => exact absurd rfl he

theorem at_of_find {keys : Object} {key : Text} {x : Value} (h : keys.find? key = some x) :
    Value.at (.object keys) key = .ok x := by
  simp only [Value.at, Object.at, h]

theorem at_of_find_none {keys : Object} {key : Text} (h : keys.find? key = none) :
    ∃ e, Value.at (.object keys) key = .error (.thrown e) := by
  simp only [Value.at, Object.at, h]
  exact ⟨_, rfl⟩

/-- `value::contains` of an object. -/
theorem contains_object (keys : Object) (key : Text) :
    Value.contains (.object keys) key = .ok (keys.find? key).isSome := rfl

theorem object_or_other (v : Value) :
    (∃ keys : Object, v = .object keys) ∨ ∀ keys, v ≠ .object keys := by
  cases v with
  | object keys => exact Or.inl ⟨keys, rfl⟩
  | null | number | bool | string | array => exact Or.inr nofun

/-- `value::contains` of anything else throws. -/
theorem contains_other {v : Value} (h : ∀ keys, v ≠ .object keys) (key : Text) :
    v.contains key = .error (.thrown .badGet) := by
  cases v with
  | object keys => exact absurd rfl (h keys)
  | null | number | bool | string | array => rfl

section OnReceive

variable {σ ι : Type} [Platform] {c : Connection σ ι} {keys : Object}

/-- The message in an object goes to `dispatch` where it has a method. -/
theorem on_receive_request (alive : ι → Bool) (h : (keys.find? (str "method")).isSome = true) :
    c.onReceive alive (.object keys) = c.dispatch (.object keys) := by
  simp only [Connection.onReceive, contains_object, h]

/-- Other messages go to `complete`. -/
theorem on_receive_response (alive : ι → Bool) (h : keys.find? (str "method") = none) :
    c.onReceive alive (.object keys) = c.complete alive (.object keys) := by
  simp only [Connection.onReceive, contains_object, h, Option.isSome_none]

/-- `on_receive` throws on what is no object. -/
theorem on_receive_other (alive : ι → Bool) {v : Value} (h : ∀ keys, v ≠ .object keys) :
    c.onReceive alive v = (c, .threw (.thrown .badGet)) := by
  simp only [Connection.onReceive, contains_other h]

/-! ## Responses -/

omit [Platform] in
/-- The response to a request begins with the id of the request alone. -/
theorem response_start (id : Value) :
    (Object.assign [] (str "id") id).find? (str "id") = some id ∧
      ∀ name, name ≠ str "id" → (Object.assign [] (str "id") id).find? name = none := by
  refine ⟨Object.find_assign_same _ _ _, fun name h => ?_⟩
  rw [Object.find_assign_other h]
  rfl

/-- A handler that gets its parameters works on an empty slot. -/
theorem call_handler {name : Text} {handler : Handler σ} (hhandler : c.methods name = some handler)
    {params : Value} (hparams : keys.find? (str "params") = some params) {result : Object}
    (hresult : result.find? (str "result") = none) :
    c.call (.object keys) name result =
      ⟨result.assign (str "result") (handler params .null c.world).rtn,
        (handler params .null c.world).world, (handler params .null c.world).thrown⟩ := by
  simp only [Connection.call, hhandler, at_of_find hparams, hresult, Option.getD]

/-- The handler of the request throws what `on_receive` does not catch. -/
def HandlerEscapes (c : Connection σ ι) (keys : Object) : Prop :=
  ∃ method handler params, keys.find? (str "method") = some method ∧
    c.methods method.toStdString = some handler ∧ keys.find? (str "params") = some params ∧
    (handler params .null c.world).thrown = some .foreign

theorem not_escapes_of_caught (hc : c.HandlersCaught) : ¬ HandlerEscapes c keys := by
  intro h
  obtain ⟨method, handler, params, -, hhandler, -, hthrown⟩ := h
  exact hc _ handler hhandler params .null c.world hthrown

/-- Only the handler can throw what `on_receive` does not catch. -/
theorem call_thrown_iff {method : Value} (hmethod : keys.find? (str "method") = some method)
    (id : Value) :
    (c.call (.object keys) method.toStdString (Object.assign [] (str "id") id)).thrown =
      some .foreign ↔ HandlerEscapes c keys := by
  have hescapes : HandlerEscapes c keys ↔ ∃ handler params,
      c.methods method.toStdString = some handler ∧ keys.find? (str "params") = some params ∧
        (handler params .null c.world).thrown = some .foreign := by
    constructor
    · intro h
      obtain ⟨method', handler, params, hmethod', hhandler, hparams, hthrown⟩ := h
      obtain rfl := Option.some.inj (hmethod.symm.trans hmethod')
      exact ⟨handler, params, hhandler, hparams, hthrown⟩
    · intro h
      obtain ⟨handler, params, hhandler, hparams, hthrown⟩ := h
      exact ⟨method, handler, params, hmethod, hhandler, hparams, hthrown⟩
  rw [hescapes]
  cases hhandler : c.methods method.toStdString with
  | none =>
      obtain ⟨packed, -, herror⟩ := add_error (Object.assign [] (str "id") id)
        (str "Unknown method '" ++ method.toStdString ++ str "'")
      simp only [Connection.call, hhandler, herror]
      simp
  | some handler =>
      cases hparams : keys.find? (str "params") with
      | some params =>
          rw [call_handler hhandler hparams ((response_start id).2 _ id_ne_result.symm)]
          simp
      | none =>
          -- the argument throws, and `at` throws with `BOOST_THROW_EXCEPTION` only
          obtain ⟨e, he⟩ := at_of_find_none hparams
          simp only [Connection.call, hhandler, he]
          simp [Exception.thrown]

omit [Platform] in
/-- The caught exceptions leave a response. -/
theorem catch_into_returns {thrown : Option Exception} (h : thrown ≠ some .foreign)
    (result : Object) : ∃ response, catchInto result thrown = .ok response := by
  cases thrown with
  | none => exact ⟨result, rfl⟩
  | some e =>
      obtain ⟨v, hv⟩ := catch_into_some (fun he => h (congrArg some he)) result
      exact ⟨_, hv⟩

/-- A request with an id is answered by one message, unless its handler throws past
`on_receive`. -/
theorem dispatch_answers (hc : ¬ HandlerEscapes c keys) {method id : Value}
    (hmethod : keys.find? (str "method") = some method) (hid : keys.find? (str "id") = some id) :
    ∃ response,
      catchInto (c.call (.object keys) method.toStdString (Object.assign [] (str "id") id)).result
        (c.call (.object keys) method.toStdString (Object.assign [] (str "id") id)).thrown =
          .ok response ∧
      c.dispatch (.object keys) =
        ({ c with world := (c.call (.object keys) method.toStdString
            (Object.assign [] (str "id") id)).world },
          .returned ⟨[.object response], none⟩) := by
  obtain ⟨response, hresponse⟩ :=
    catch_into_returns (mt (call_thrown_iff hmethod id).mp hc)
      (c.call (.object keys) method.toStdString (Object.assign [] (str "id") id)).result
  refine ⟨response, hresponse, ?_⟩
  simp only [Connection.dispatch, at_of_find hmethod, at_of_find hid, hresponse]

/-- A handler that throws past `on_receive` ends it. -/
theorem dispatch_throws (hescapes : HandlerEscapes c keys) {method id : Value}
    (hmethod : keys.find? (str "method") = some method) (hid : keys.find? (str "id") = some id) :
    (c.dispatch (.object keys)).2 = .threw .foreign := by
  have hthrown := (call_thrown_iff hmethod id).mpr hescapes
  simp only [Connection.dispatch, at_of_find hmethod, at_of_find hid, hthrown, catchInto]

/-! ## Which messages `on_receive` survives -/

/-- The number that is the id of a response. -/
def Value.responseId : Value → Option Double
  | .object keys =>
      match Object.find? keys (str "method"), Object.find? keys (str "id") with
      | none, some (.number x) => some x
      | _, _ => none
  | _ => none

/-- `on_receive` finds the members that it reads, of the types that it reads, with an id that is an
`int`, and can set the promise that it finds or write the message that it logs. -/
def Readable (c : Connection σ ι) (alive : ι → Bool) (keys : Object) : Prop :=
  match Object.find? keys (str "method"), Object.find? keys (str "id") with
  | some _, some _ => True
  | some _, none => False
  | none, some (.number x) =>
      ∃ id, x.toInt = some id ∧
        match c.pendingReq id with
        | some promise => alive promise = true
        | none => counted (.object keys) = true
  | none, some _ => False
  | none, none => counted (.object keys) = true

/-- An entry that is found by the id of a response, without what stands behind its point, is that
of the id. -/
def FindsOwn (c : Connection σ ι) (v : Value) : Prop :=
  ∀ x id, v.responseId = some x → x.toInt = some id → c.pendingReq id ≠ none → x = .finite id

/-- The message is an object that `on_receive` can read, and finds no entry but that of its id. -/
def Receivable (c : Connection σ ι) (alive : ι → Bool) (v : Value) : Prop :=
  ∃ keys, v = .object keys ∧ Readable c alive keys ∧ FindsOwn c v

/-- The message changes nothing of the connection but the entry of its id, and nothing of the
world unless it is a request. -/
structure OnlyMatched (c : Connection σ ι) (alive : ι → Bool) (v : Value) : Prop where
  methods : (c.onReceive alive v).1.methods = c.methods
  nextId : (c.onReceive alive v).1.nextId = c.nextId
  pendingReq : ∀ id : Int, v.responseId ≠ some (.finite id) →
    (c.onReceive alive v).1.pendingReq id = c.pendingReq id
  world : v.contains (str "method") ≠ .ok true → (c.onReceive alive v).1.world = c.world

theorem dispatch_pending (c : Connection σ ι) (v : Value) :
    (c.dispatch v).1.methods = c.methods ∧ (c.dispatch v).1.nextId = c.nextId ∧
      (c.dispatch v).1.pendingReq = c.pendingReq := by
  unfold Connection.dispatch
  split
  · exact ⟨rfl, rfl, rfl⟩
  · split
    · exact ⟨rfl, rfl, rfl⟩
    · dsimp only
      split <;> exact ⟨rfl, rfl, rfl⟩

omit [Platform] in
/-- `complete` of an object with an id. -/
theorem complete_found (c : Connection σ ι) (alive : ι → Bool) {keys : Object} {y : Value}
    (hid : keys.find? (str "id") = some y) :
    c.complete alive (.object keys) =
      match y.toInt with
      | .error (.threw e) => (c, .threw e)
      | .error _ => (c, .undefined)
      | .ok id =>
          match c.pendingReq id with
          | some promise =>
              if alive promise then (c.erase id, .returned ⟨[], some (promise, .object keys)⟩)
              else (c, .undefined)
          | none => (c, Connection.log (.object keys)) := by
  simp only [Connection.complete, contains_object, hid, Option.isSome_some, at_of_find hid,
    raised_ok]
  rfl

/-- The response is one that `on_receive` cannot read: its id is no `int`, or that of an entry
whose promise is gone. -/
def Misread (c : Connection σ ι) (alive : ι → Bool) (x : Double) : Prop :=
  ∀ id, x.toInt = some id → ∃ promise, c.pendingReq id = some promise ∧ alive promise = false

omit [Platform] in
/-- What `complete` does with an object: it sets the promise of an entry, or it is undefined, or it
changes nothing. -/
theorem complete_cases (c : Connection σ ι) (alive : ι → Bool) (keys : Object) :
    (∃ x id promise, keys.find? (str "id") = some (.number x) ∧ x.toInt = some id ∧
        c.pendingReq id = some promise ∧ alive promise = true ∧
        c.complete alive (.object keys) =
          (c.erase id, .returned ⟨[], some (promise, .object keys)⟩)) ∨
      (∃ x, keys.find? (str "id") = some (.number x) ∧ Misread c alive x ∧
        c.complete alive (.object keys) = (c, .undefined)) ∨
      (∃ x id, keys.find? (str "id") = some (.number x) ∧ x.toInt = some id ∧
        c.pendingReq id = none ∧
        c.complete alive (.object keys) = (c, Connection.log (.object keys))) ∨
      (∃ y, keys.find? (str "id") = some y ∧ (∀ x, y ≠ .number x) ∧
        c.complete alive (.object keys) = (c, .threw (.thrown .badGet))) ∨
      (keys.find? (str "id") = none ∧
        c.complete alive (.object keys) = (c, Connection.log (.object keys))) := by
  cases hid : keys.find? (str "id") with
  | none =>
      right; right; right; right
      exact ⟨rfl, by simp only [Connection.complete, contains_object, hid, Option.isSome_none]⟩
  | some y =>
      have hread := complete_found c alive hid
      cases y with
      | number x =>
          rw [Value.toInt] at hread
          cases hx : x.toInt with
          | none =>
              right; left
              refine ⟨x, rfl, fun id h => ?_, by simp only [hread, hx]⟩
              cases hx.symm.trans h
          | some id =>
              simp only [hx] at hread
              cases hpending : c.pendingReq id with
              | none =>
                  right; right; left
                  exact ⟨x, id, rfl, hx, hpending, by simp only [hread, hpending]⟩
              | some promise =>
                  simp only [hpending] at hread
                  cases halive : alive promise with
                  | true =>
                      left
                      refine ⟨x, id, promise, rfl, hx, hpending, halive, ?_⟩
                      rw [hread, if_pos halive]
                  | false =>
                      right; left
                      refine ⟨x, rfl, fun id' h => ?_, by rw [hread, if_neg (by simp [halive])]⟩
                      obtain rfl := Option.some.inj (hx.symm.trans h)
                      exact ⟨promise, hpending, halive⟩
      | null | bool | string | object | array =>
          right; right; right; left
          exact ⟨_, rfl, fun x h => Value.noConfusion h, hread⟩

/-- Whatever arrives, only the entry that it finds changes. -/
theorem on_receive_frame {alive : ι → Bool} {v : Value} (hown : FindsOwn c v) :
    OnlyMatched c alive v := by
  have frame : ∀ keys : Object, FindsOwn c (.object keys) → OnlyMatched c alive (.object keys) := by
    intro keys hown
    cases hmethod : keys.find? (str "method") with
    | some method =>
        have hrequest : (keys.find? (str "method")).isSome = true := by rw [hmethod]; rfl
        obtain ⟨hmethods, hnext, hpending⟩ := dispatch_pending c (.object keys)
        have heq := on_receive_request (c := c) alive hrequest
        refine ⟨heq ▸ hmethods, heq ▸ hnext, fun id _ => heq ▸ congrFun hpending id, ?_⟩
        intro hnot
        exact absurd (by rw [contains_object, hrequest]) hnot
    | none =>
        have heq := on_receive_response (c := c) alive hmethod
        rcases complete_cases c alive keys with ⟨x, id, promise, hid, hx, hpending, -, hcomplete⟩ |
          ⟨x, -, -, hcomplete⟩ | ⟨x, id, -, -, -, hcomplete⟩ | ⟨y, -, -, hcomplete⟩ |
          ⟨-, hcomplete⟩
        · rw [hcomplete] at heq
          have hread : Value.responseId (.object keys) = some x := by
            simp only [Value.responseId, hmethod, hid]
          refine ⟨by rw [heq]; rfl, by rw [heq]; rfl, fun id' hne => ?_, fun _ => by rw [heq]; rfl⟩
          have hdistinct : id' ≠ id := by
            rintro rfl
            exact hne (hown x id' hread hx (by rw [hpending]; nofun) ▸ hread)
          rw [heq]
          exact Function.update_of_ne hdistinct _ _
        all_goals
          rw [hcomplete] at heq
          exact ⟨by rw [heq], by rw [heq], fun _ _ => by rw [heq], fun _ => by rw [heq]⟩
  rcases object_or_other v with ⟨keys, rfl⟩ | hother
  · exact frame keys hown
  · have heq := on_receive_other (c := c) alive hother
    exact ⟨by rw [heq], by rw [heq], fun _ _ => by rw [heq], fun _ => by rw [heq]⟩

omit [Platform] in
theorem log_completed {v : Value} {reaction : Reaction ι}
    (h : Connection.log v = .returned reaction) : reaction.completed = none := by
  unfold Connection.log at h
  split at h
  · obtain rfl := Outcome.returned.inj h
    rfl
  · exact absurd h nofun

omit [Platform] in
theorem log_defined (v : Value) : (Connection.log v : Outcome ι) ≠ .undefined := by
  unfold Connection.log
  split <;> nofun

theorem dispatch_completed {v : Value} {reaction : Reaction ι}
    (h : (c.dispatch v).2 = .returned reaction) : reaction.completed = none := by
  unfold Connection.dispatch at h
  split at h
  · exact absurd h nofun
  · split at h
    · exact absurd h nofun
    · dsimp only at h
      split at h
      · exact absurd h nofun
      · obtain rfl := Outcome.returned.inj h
        rfl

theorem dispatch_defined (c : Connection σ ι) (v : Value) : (c.dispatch v).2 ≠ .undefined := by
  unfold Connection.dispatch
  split
  · nofun
  · split
    · nofun
    · dsimp only
      split <;> nofun

/-- The message leaves `pending_req` alone, since it is no response to a call that has an entry. -/
structure Unmatched (c : Connection σ ι) (alive : ι → Bool) (v : Value) : Prop where
  pendingReq : (c.onReceive alive v).1.pendingReq = c.pendingReq
  nextId : (c.onReceive alive v).1.nextId = c.nextId
  completed : ∀ reaction, (c.onReceive alive v).2 = .returned reaction → reaction.completed = none
  defined : (c.onReceive alive v).2 ≠ .undefined
  unknown : ∀ x id, v.responseId = some x → x.toInt = some id → c.pendingReq id = none

/-- A message that changes nothing and sets no promise. -/
theorem Unmatched.of_same {alive : ι → Bool} {v : Value} {outcome : Outcome ι}
    (heq : c.onReceive alive v = (c, outcome))
    (hcompleted : ∀ reaction, outcome = .returned reaction → reaction.completed = none)
    (hdefined : outcome ≠ .undefined)
    (hunknown : ∀ x id, v.responseId = some x → x.toInt = some id → c.pendingReq id = none) :
    Unmatched c alive v := by
  refine ⟨by rw [heq], by rw [heq], fun r hr => ?_, ?_, hunknown⟩
  · rw [heq] at hr
    exact hcompleted r hr
  · rw [heq]
    exact hdefined

omit [Platform] in
theorem response_id_number {x : Double} (hmethod : keys.find? (str "method") = none)
    (hid : keys.find? (str "id") = some (.number x)) :
    Value.responseId (.object keys) = some x := by
  simp only [Value.responseId, hmethod, hid]

/-- A message sets the promise of the entry of its id, or is undefined, or leaves `pending_req`
alone. -/
theorem on_receive_cases (c : Connection σ ι) (alive : ι → Bool) (v : Value) :
    (∃ x id promise, v.responseId = some x ∧ x.toInt = some id ∧
        c.pendingReq id = some promise ∧ alive promise = true ∧
        c.onReceive alive v = (c.erase id, .returned ⟨[], some (promise, v)⟩)) ∨
      (∃ x, v.responseId = some x ∧ Misread c alive x ∧ c.onReceive alive v = (c, .undefined)) ∨
      Unmatched c alive v := by
  rcases object_or_other v with ⟨keys, rfl⟩ | hother
  · cases hmethod : keys.find? (str "method") with
    | some method =>
        have heq := on_receive_request (c := c) alive (by rw [hmethod]; rfl)
        obtain ⟨-, hnext, hpending⟩ := dispatch_pending c (.object keys)
        refine .inr (.inr ⟨heq ▸ hpending, heq ▸ hnext, fun r hr => ?_, ?_, fun x id hread => ?_⟩)
        · rw [heq] at hr
          exact dispatch_completed hr
        · rw [heq]
          exact dispatch_defined c _
        · simp [Value.responseId, hmethod] at hread
    | none =>
        have heq := on_receive_response (c := c) alive hmethod
        rcases complete_cases c alive keys with
          ⟨x, id, promise, hid, hx, hpending, halive, hcomplete⟩ | ⟨x, hid, hmisread, hcomplete⟩ |
          ⟨x, id, hid, hx, hpending, hcomplete⟩ | ⟨y, hid, hnumber, hcomplete⟩ |
          ⟨hid, hcomplete⟩
        · exact .inl ⟨x, id, promise, response_id_number hmethod hid, hx, hpending, halive,
            heq.trans hcomplete⟩
        · exact .inr (.inl ⟨x, response_id_number hmethod hid, hmisread, heq.trans hcomplete⟩)
        · refine .inr (.inr (.of_same (heq.trans hcomplete) (fun _ => log_completed)
            (log_defined _) fun x' id' hread hx' => ?_))
          obtain rfl := Option.some.inj ((response_id_number hmethod hid).symm.trans hread)
          obtain rfl := Option.some.inj (hx.symm.trans hx')
          exact hpending
        · refine .inr (.inr (.of_same (heq.trans hcomplete) nofun nofun fun x id hread => ?_))
          cases y with
          | number x => exact absurd rfl (hnumber x)
          | null | bool | string | object | array =>
              simp [Value.responseId, hmethod, hid] at hread
        · refine .inr (.inr (.of_same (heq.trans hcomplete) (fun _ => log_completed)
            (log_defined _) fun x id hread => ?_))
          simp [Value.responseId, hmethod, hid] at hread
  · refine .inr (.inr (.of_same (on_receive_other alive hother) nofun nofun
      fun x id hread => ?_))
    cases v with
    | object keys => exact absurd rfl (hother keys)
    | null | number | bool | string | array => cases hread

omit [Platform] in
theorem log_returns_iff (v : Value) :
    (∃ r, (Connection.log v : Outcome ι) = .returned r) ↔ counted v = true := by
  rw [← write_returns_iff v false, Connection.log]
  cases write v false <;> simp

/-- The messages that are objects. -/
theorem on_receive_object_returns (c : Connection σ ι) (alive : ι → Bool) (keys : Object) :
    (∃ r, (c.onReceive alive (.object keys)).2 = .returned r) ↔
      Readable c alive keys ∧ ¬ HandlerEscapes c keys := by
  unfold Readable
  cases hmethod : keys.find? (str "method") with
  | some method =>
      rw [on_receive_request alive (by rw [hmethod]; rfl)]
      cases hid : keys.find? (str "id") with
      | some id =>
          by_cases hescapes : HandlerEscapes c keys
          · simp [dispatch_throws hescapes hmethod hid, hescapes]
          · obtain ⟨response, -, hdispatch⟩ := dispatch_answers hescapes hmethod hid
            simp [hdispatch, hescapes]
      | none =>
          obtain ⟨e, he⟩ := at_of_find_none hid
          simp [Connection.dispatch, at_of_find hmethod, he]
  | none =>
      have hescapes : ¬ HandlerEscapes c keys := by
        intro h
        obtain ⟨method, -, -, hfound, -⟩ := h
        exact absurd (hmethod.symm.trans hfound) nofun
      rw [on_receive_response alive hmethod, and_iff_left hescapes]
      rcases complete_cases c alive keys with
        ⟨x, id, promise, hid, hx, hpending, halive, hcomplete⟩ | ⟨x, hid, hmisread, hcomplete⟩ |
        ⟨x, id, hid, hx, hpending, hcomplete⟩ | ⟨y, hid, hnumber, hcomplete⟩ | ⟨hid, hcomplete⟩
      · simp [hcomplete, hid, hx, hpending, halive]
      · simp only [hcomplete, hid]
        refine iff_of_false (by simp) ?_
        rintro ⟨id, hx, halive⟩
        obtain ⟨promise, hpending, hdead⟩ := hmisread id hx
        simp only [hpending, hdead] at halive
        cases halive
      · simp [hcomplete, hid, hx, hpending, log_returns_iff]
      · cases y with
        | number x => exact absurd rfl (hnumber x)
        | null | bool | string | object | array => simp [hcomplete, hid]
      · simp [hcomplete, hid, log_returns_iff]

/-- A message that is received finds an entry whose id it has, where no other entry changes. -/
theorem finds_own_of_only {alive : ι → Bool} {v : Value} (h : OnlyMatched c alive v)
    (hreturns : ∃ r, (c.onReceive alive v).2 = .returned r) : FindsOwn c v := by
  intro x id hread hx hentry
  rcases on_receive_cases c alive v with
    ⟨x', id', promise, hread', hx', hpending, -, heq⟩ | ⟨x', -, -, heq⟩ | hunmatched
  · obtain rfl := Option.some.inj (hread.symm.trans hread')
    obtain rfl := Option.some.inj (hx.symm.trans hx')
    by_contra hother
    have hkept := h.pendingReq id (by rw [hread]; exact fun heq => hother (Option.some.inj heq))
    rw [heq] at hkept
    have herased : (c.erase id).pendingReq id = none := Function.update_self _ _ _
    exact hentry (hkept.symm.trans herased)
  · obtain ⟨r, hr⟩ := hreturns
    rw [heq] at hr
    cases hr
  · exact absurd (hunmatched.unknown x id hread hx) hentry

/-- `on_receive` returns, and changes nothing but the entry of the message's id, exactly where it
can read the message and finds no entry of another id. -/
theorem on_receive_returns_iff (c : Connection σ ι) (alive : ι → Bool) (hc : c.HandlersCaught)
    (v : Value) :
    ((∃ r, (c.onReceive alive v).2 = .returned r) ∧ OnlyMatched c alive v) ↔
      Receivable c alive v := by
  rcases object_or_other v with ⟨keys, rfl⟩ | hother
  · have hreturns : (∃ r, (c.onReceive alive (.object keys)).2 = .returned r) ↔
        Readable c alive keys := by
      rw [on_receive_object_returns, and_iff_left (not_escapes_of_caught hc)]
    constructor
    · rintro ⟨hreturned, honly⟩
      exact ⟨keys, rfl, hreturns.mp hreturned, finds_own_of_only honly hreturned⟩
    · rintro ⟨keys', hkeys, hreadable, hown⟩
      obtain rfl := Value.object.inj hkeys
      exact ⟨hreturns.mpr hreadable, on_receive_frame hown⟩
  · rw [on_receive_other alive hother]
    constructor
    · intro h
      obtain ⟨⟨r, hr⟩, -⟩ := h
      exact absurd hr nofun
    · intro h
      obtain ⟨keys, hkeys, -⟩ := h
      exact absurd hkeys (hother keys)

omit [Platform] in
/-- A response to a call that waits. -/
theorem on_receive_waited :
    letI := Platform.exact false
    letI c : Connection Unit Unit :=
      ⟨fun _ => none, Function.update (fun _ => none) 1 (some ()), 1, ()⟩
    (∃ r, (c.onReceive (fun _ => true) (.object [(str "id", .int 1)])).2 = .returned r) ∧
      OnlyMatched c (fun _ => true) (.object [(str "id", .int 1)]) := by
  let _ := Platform.exact false
  refine (on_receive_returns_iff _ _ nofun _).mpr
    ⟨[(str "id", .int 1)], rfl, ⟨1, rfl, rfl⟩, fun x id hread hx _ => ?_⟩
  obtain rfl := Option.some.inj hread
  rw [Double.int_of_to_int hx]

omit [Platform] in
/-- An array makes `on_receive` throw. -/
theorem on_receive_throws_on_array :
    letI := Platform.exact false
    ¬ ∀ (c : Connection Unit Unit) (alive : Unit → Bool), c.HandlersCaught → ∀ v,
      (∃ r, (c.onReceive alive v).2 = .returned r) ∧ OnlyMatched c alive v := by
  intro h
  obtain ⟨⟨r, hr⟩, -⟩ := h (.fresh (fun _ => none) ()) (fun _ => true) nofun (.array [])
  exact absurd hr nofun

/-! ## Which requests get one response -/

/-- The handler of the request's method is found and returns. -/
def Succeeds (c : Connection σ ι) (keys : Object) : Prop :=
  ∃ method handler params, keys.find? (str "method") = some method ∧
    c.methods method.toStdString = some handler ∧ keys.find? (str "params") = some params ∧
    (handler params .null c.world).thrown = none

/-- `on_receive` sends one message with the id of the request and one of the members `result` and
`error`: the result where the handler succeeds. -/
def OneResponse (c : Connection σ ι) (alive : ι → Bool) (keys : Object) : Prop :=
  ∃ response : Object,
    (c.onReceive alive (.object keys)).2 = .returned ⟨[.object response], none⟩ ∧
    response.find? (str "id") = keys.find? (str "id") ∧
    (response.contains (str "result") ^^ response.contains (str "error")) = true ∧
    (response.contains (str "result") = true ↔ Succeeds c keys)

/-- The method is unknown, or its handler gets its parameters and returns, or the parameters are
missing and the compiler evaluates them before it makes the member `result`. -/
def AnswersOnce (c : Connection σ ι) (keys : Object) (method : Value) : Prop :=
  ∀ handler, c.methods method.toStdString = some handler →
    match keys.find? (str "params") with
    | some params => (handler params .null c.world).thrown = none
    | none => Platform.lastArgumentFirst = false

/-- The members of the response: its id, and which of the other two it has. -/
theorem response_members (alive : ι → Bool) (hc : c.HandlersCaught) {method id : Value}
    (hmethod : keys.find? (str "method") = some method) (hid : keys.find? (str "id") = some id) :
    ∃ response : Object,
      (c.onReceive alive (.object keys)).2 = .returned ⟨[.object response], none⟩ ∧
      response.find? (str "id") = some id ∧
      match c.methods method.toStdString with
      | none => response.contains (str "result") = false ∧ response.contains (str "error") = true
      | some handler =>
          match keys.find? (str "params") with
          | some params =>
              response.contains (str "result") = true ∧
                response.contains (str "error") = (handler params .null c.world).thrown.isSome
          | none =>
              response.contains (str "result") = Platform.lastArgumentFirst ∧
                response.contains (str "error") = true := by
  obtain ⟨response, hcatch, hdispatch⟩ :=
    dispatch_answers (not_escapes_of_caught hc) hmethod hid
  refine ⟨response, ?_⟩
  rw [on_receive_request alive (by rw [hmethod]; rfl), hdispatch]
  refine ⟨rfl, ?_⟩
  obtain ⟨first_id, first_other⟩ := response_start id
  generalize Object.assign [] (str "id") id = first at hcatch first_id first_other
  have first_result := first_other _ id_ne_result.symm
  have first_error := first_other _ id_ne_error.symm
  cases hhandler : c.methods method.toStdString with
  | none =>
      obtain ⟨packed, -, herror⟩ :=
        add_error first (str "Unknown method '" ++ method.toStdString ++ str "'")
      simp only [Connection.call, hhandler, herror, catchInto] at hcatch
      obtain rfl := Except.ok.inj hcatch
      simp [Object.contains, id_ne_error, result_ne_error, first_id, first_result]
  | some handler =>
      cases hparams : keys.find? (str "params") with
      | some params =>
          rw [call_handler hhandler hparams first_result] at hcatch
          cases hthrown : (handler params .null c.world).thrown with
          | none =>
              simp only [hthrown, catchInto] at hcatch
              obtain rfl := Except.ok.inj hcatch
              simp [Object.contains, id_ne_result, result_ne_error.symm, first_id, first_error,
                hthrown]
          | some e =>
              have he : e ≠ .foreign := fun h =>
                hc _ _ hhandler params .null c.world (hthrown.trans (congrArg some h))
              obtain ⟨packed, hpacked⟩ := catch_into_some he
                (first.assign (str "result") (handler params .null c.world).rtn)
              simp only [hthrown, hpacked] at hcatch
              obtain rfl := Except.ok.inj hcatch
              simp [Object.contains, id_ne_error, id_ne_result, result_ne_error, first_id, hthrown]
      | none =>
          obtain ⟨e, he⟩ := at_of_find_none hparams
          have hcall : c.call (.object keys) method.toStdString first =
              ⟨if Platform.lastArgumentFirst then first.touch (str "result") else first, c.world,
                some (.thrown e)⟩ := by
            simp only [Connection.call, hhandler, he]
          have hforeign : Exception.thrown e ≠ .foreign := by simp [Exception.thrown]
          obtain ⟨packed, hpacked⟩ := catch_into_some hforeign
            (if Platform.lastArgumentFirst then first.touch (str "result") else first)
          rw [hcall] at hcatch
          simp only [hpacked] at hcatch
          obtain rfl := Except.ok.inj hcatch
          cases Platform.lastArgumentFirst with
          | true =>
              simp [Object.touch, Object.contains, id_ne_error, id_ne_result, result_ne_error,
                first_id]
          | false => simp [Object.contains, id_ne_error, result_ne_error, first_id, first_result]

/-- A request gets one response of JSON-RPC 2.0 exactly where no exception leaves the slot for the
result behind. -/
theorem one_response_iff (alive : ι → Bool) (hc : c.HandlersCaught) {method id : Value}
    (hmethod : keys.find? (str "method") = some method) (hid : keys.find? (str "id") = some id) :
    OneResponse c alive keys ↔ AnswersOnce c keys method := by
  obtain ⟨response, hsent, hresponse, hmembers⟩ := response_members alive hc hmethod hid
  have unique : ∀ other : Object,
      (c.onReceive alive (.object keys)).2 = .returned ⟨[.object other], none⟩ →
        other = response := by
    intro other hother
    have heq := hother.symm.trans hsent
    simpa using heq
  have hone : OneResponse c alive keys ↔
      (response.contains (str "result") ^^ response.contains (str "error")) = true ∧
        (response.contains (str "result") = true ↔ Succeeds c keys) := by
    constructor
    · intro h
      obtain ⟨other, hother, -, hmember, hsucceeds⟩ := h
      obtain rfl := unique other hother
      exact ⟨hmember, hsucceeds⟩
    · intro h
      obtain ⟨hmember, hsucceeds⟩ := h
      exact ⟨response, hsent, hresponse.trans hid.symm, hmember, hsucceeds⟩
  have hsucceeds : Succeeds c keys ↔ ∃ handler params, c.methods method.toStdString = some handler ∧
      keys.find? (str "params") = some params ∧ (handler params .null c.world).thrown = none := by
    constructor
    · intro h
      obtain ⟨method', handler, params, hmethod', hhandler, hparams, hthrown⟩ := h
      obtain rfl := Option.some.inj (hmethod.symm.trans hmethod')
      exact ⟨handler, params, hhandler, hparams, hthrown⟩
    · intro h
      obtain ⟨handler, params, hhandler, hparams, hthrown⟩ := h
      exact ⟨method, handler, params, hmethod, hhandler, hparams, hthrown⟩
  rw [hone, hsucceeds, AnswersOnce]
  cases hhandler : c.methods method.toStdString with
  | none =>
      simp only [hhandler] at hmembers
      simp [hmembers]
  | some handler =>
      simp only [hhandler] at hmembers
      cases hparams : keys.find? (str "params") with
      | some params =>
          simp only [hparams] at hmembers
          cases hthrown : (handler params .null c.world).thrown <;>
            simp [hmembers, hthrown]
      | none =>
          simp only [hparams] at hmembers
          cases hfirst : Platform.lastArgumentFirst <;> simp [hmembers, hfirst]

omit [Platform] in
/-- A request whose handler returns. -/
theorem one_response_returned :
    letI := Platform.exact true
    OneResponse (Connection.fresh (fun _ => some fun _ _ _ => ⟨.int 1, (), none⟩) () :
        Connection Unit Unit) (fun _ => true)
      [(str "method", .string (str "f")), (str "id", .int 1), (str "params", .array [])] :=
  letI := Platform.exact true
  (one_response_iff _ (fun _ _ h _ _ _ => Option.some.inj h ▸ nofun) rfl rfl).mpr fun _ h =>
    Option.some.inj h ▸ rfl

omit [Platform] in
/-- The response to a request whose handler throws has both members. -/
theorem two_members_thrown :
    letI := Platform.exact false
    ¬ ∀ (c : Connection Unit Unit) (alive : Unit → Bool), c.HandlersCaught → ∀ keys : Object,
      (∃ method, keys.find? (str "method") = some method) →
        (∃ id, keys.find? (str "id") = some id) → OneResponse c alive keys := by
  intro h
  have hone := h
    (.fresh (fun _ => some fun _ slot _ => ⟨slot, (), some (.std (.user (str "no")) false)⟩) ())
    (fun _ => true)
    (fun _ _ h _ _ _ => Option.some.inj h ▸ nofun)
    [(str "method", .string (str "f")), (str "id", .int 1), (str "params", .array [])]
    ⟨_, rfl⟩ ⟨_, rfl⟩
  obtain ⟨response, hsent, -, hmember, -⟩ := hone
  have hresponse : (.returned ⟨[.object [(str "id", .int 1), (str "result", .null), (str "error",
      .object [(str "code", .int 0), (str "message", .string (str "no"))])]], none⟩ :
        Outcome Unit) = .returned ⟨[.object response], none⟩ := hsent
  obtain rfl : [(str "id", .int 1), (str "result", .null), (str "error", .object
      [(str "code", .int 0), (str "message", .string (str "no"))])] = response := by
    simpa using hresponse
  exact absurd hmember (by decide)

end OnReceive

end BoostRpc.Json
