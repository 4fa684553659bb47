import BoostRpc.Json.Subscription
import Mathlib.Data.Fintype.Sum
import Mathlib.Tactic.DeriveFintype

/-!
# One object for many clients

A program listens for connections and makes a `server` of the same object for each of them. Every
session connects a slot that forwards to every signal of the object, so an emission that one client
makes goes on to the other clients. The slot of a session is a call: it sends a request to its
client and waits for the response, which the `read_loop` of the session has to take. The emission of
a client is delivered inside of the `read_loop` of its session.

The slots of an emission are called in any order, as the order is that in which they have been
connected. The other slots of the object, and those of the clients, return or throw. `broadcast`
says which clients get which emissions.
-/

namespace BoostRpc.Json

open Lts

/-! ## The sessions -/

/-- Who emits a signal of the object: the `read_loop` of a session, which delivers an emission of
its client, or another fiber. -/
inductive Emitter (ι φ : Type) where
  | loop (i : ι)
  | fiber (f : φ)
  deriving DecidableEq, Fintype

/-- An emission on its way from slot to slot. -/
structure Emission (ι π : Type) where
  name : Text
  fp : π
  /-- The sessions whose slots have not been called. -/
  left : Finset ι
  /-- The session whose slot waits for the response of its client. -/
  waiting : Option ι

/-- What a client sends. -/
inductive FromClient (ι φ π : Type) where
  /-- The request of `rpc_connect_delegate`. -/
  | connectSignal (sig : Text) (count : Int)
  /-- The request of the delegate of a mirror. -/
  | emission (name : Text) (fp : π)
  /-- The response to the request that this emission waits for. -/
  | response (e : Emitter ι φ)

/-- What a session sends to its client. -/
inductive FromServer (ι φ π : Type) where
  /-- The request of the slot that forwards, in which this emission waits. -/
  | emission (e : Emitter ι φ) (name : Text) (fp : π)
  | response

/-- The sessions of an object. -/
structure Hub (ι φ π : Type) where
  session : ι → Server
  /-- No exception has left the `read_loop` of the session. -/
  reads : ι → Bool
  emission : Emitter ι φ → Option (Emission ι π)
  toServer : ι → List (FromClient ι φ π)
  toClient : ι → List (FromServer ι φ π)

/-- What happens at the sessions and at their clients. -/
inductive HubEvent (ι φ π : Type) where
  /-- A mirror of a client reports its slots. -/
  | report (i : ι) (sig : Text) (count : Int)
  /-- A mirror of a client is invoked. -/
  | invoke (i : ι) (name : Text) (fp : π)
  /-- The `read_loop` of a client takes a message. -/
  | clientRead (i : ι)
  /-- The `read_loop` of a session takes a message. -/
  | serverRead (i : ι)
  /-- A fiber of the program emits a signal of the object. -/
  | emit (f : φ) (name : Text) (fp : π)
  /-- An emission comes to the slot of a session. -/
  | slot (e : Emitter ι φ) (i : ι)
  /-- An emission ends, behind the last slot or with what a slot throws. -/
  | finish (e : Emitter ι φ) (thrown : Option Exception)

section Step

variable {ι φ π : Type} [DecidableEq ι] [DecidableEq φ]

namespace Hub

/-- The client has sent a message. -/
def sendUp (s : Hub ι φ π) (i : ι) (msg : FromClient ι φ π) : Hub ι φ π :=
  { s with toServer := Function.update s.toServer i (s.toServer i ++ [msg]) }

/-- The session has sent some messages. -/
def sendDown (s : Hub ι φ π) (i : ι) (msgs : List (FromServer ι φ π)) : Hub ι φ π :=
  { s with toClient := Function.update s.toClient i (s.toClient i ++ msgs) }

/-- The session has taken its first message, and this is left. -/
def take (s : Hub ι φ π) (i : ι) (rest : List (FromClient ι φ π)) : Hub ι φ π :=
  { s with toServer := Function.update s.toServer i rest }

/-- The client has taken its first message, and this is left. -/
def takeDown (s : Hub ι φ π) (i : ι) (rest : List (FromServer ι φ π)) : Hub ι φ π :=
  { s with toClient := Function.update s.toClient i rest }

/-- Something has happened to the signals of a session. -/
def put (s : Hub ι φ π) (i : ι) (server : Server) : Hub ι φ π :=
  { s with session := Function.update s.session i server }

/-- An emission has begun, has gone on or has ended. -/
def set (s : Hub ι φ π) (e : Emitter ι φ) (em : Option (Emission ι π)) : Hub ι φ π :=
  { s with emission := Function.update s.emission e em }

/-- An exception has left the `read_loop` of the session. -/
def leave (s : Hub ι φ π) (i : ι) : Hub ι φ π :=
  { s with reads := Function.update s.reads i false }

/-- The response to the request that an emission waits for has come. `on_receive` drops one that
nobody waits for. -/
def resume (s : Hub ι φ π) (i : ι) (e : Emitter ι φ) : Hub ι φ π :=
  match s.emission e with
  | some em => if em.waiting = some i then s.set e (some { em with waiting := none }) else s
  | none => s

/-- The slot of a session has been called, and waits if it has sent a request. -/
def called (s : Hub ι φ π) (e : Emitter ι φ) (em : Emission ι π) (i : ι) (server : Server) :
    Hub ι φ π :=
  let sent := server.sent.drop (s.session i).sent.length
  ((s.put i server).set e (some { em with
    left := em.left.erase i
    waiting := if sent = [] then none else some i })).sendDown i
      (sent.map fun name => .emission e name em.fp)

variable [Fintype ι]

/-- One event. -/
def step (s : Hub ι φ π) : HubEvent ι φ π → Result (Hub ι φ π)
  | .report i sig count => .next (s.sendUp i (.connectSignal sig count))
  | .invoke i name fp => .next (s.sendUp i (.emission name fp))
  | .clientRead i =>
      match s.toClient i with
      -- the client emits at its mirror and responds
      | .emission e _ _ :: rest => .next ((s.takeDown i rest).sendUp i (.response e))
      | .response :: rest => .next (s.takeDown i rest)
      | [] => .impossible
  | .serverRead i =>
      if s.reads i && (s.session i).delivery.isNone then
        match s.toServer i with
        | .connectSignal sig count :: rest =>
            ((s.session i).step (.connectSignal sig count)).map fun server =>
              ((s.take i rest).put i server).sendDown i [.response]
        | .emission name fp :: rest =>
            match (s.session i).functors name with
            | some _ =>
                ((s.session i).step (.receive name)).map fun server =>
                  ((s.take i rest).put i server).set (.loop i)
                    (some ⟨name, fp, Finset.univ, none⟩)
            -- an unknown method
            | none => .next ((s.take i rest).sendDown i [.response])
        | .response e :: rest => .next ((s.take i rest).resume i e)
        | [] => .impossible
      else .impossible
  | .emit f name fp =>
      if (s.emission (.fiber f)).isNone ∧ ∀ i, ((s.session i).functors name).isSome then
        .next (s.set (.fiber f) (some ⟨name, fp, Finset.univ, none⟩))
      else .impossible
  | .slot e i =>
      match s.emission e with
      | some em =>
          if em.waiting = none ∧ i ∈ em.left then
            ((s.session i).step (if e = .loop i then .reach else .emit em.name)).map
              (s.called e em i)
          else .impossible
      | none => .impossible
  | .finish e thrown =>
      match s.emission e with
      | some em =>
          if em.waiting = none ∧ (thrown = none → em.left = ∅) then
            match e with
            | .fiber _ => .next (s.set e none)
            | .loop i =>
                ((s.session i).step (.finish thrown)).map fun server =>
                  match thrown with
                  | some .foreign => ((s.put i server).set e none).leave i
                  | _ => ((s.put i server).set e none).sendDown i [.response]
          else .impossible
      | none => .impossible

/-- New sessions of an object with these signals. -/
def new (names : List Text) : Hub ι φ π where
  session _ := .new names
  reads _ := true
  emission _ := none
  toServer _ := []
  toClient _ := []

end Hub

variable [Fintype ι]

/-- The sessions from their construction on. -/
def hub (ι φ π : Type) [DecidableEq ι] [DecidableEq φ] [Fintype ι] (names : List Text) :
    System (Hub ι φ π) (HubEvent ι φ π) where
  start s := s = .new names
  step := Hub.step

end Step

/-! ## What is seen -/

section History

variable {ι φ π : Type} [DecidableEq ι] [DecidableEq φ]

/-- What is seen of the emissions. -/
inductive Noticed (ι φ π : Type) where
  /-- The session of the client gets a count. -/
  | connected (i : ι) (sig : Text) (count : Int)
  | began (e : Emitter ι φ) (name : Text) (fp : π)
  /-- The emission comes to the slot of the session, which sends it to its client or does not. -/
  | came (e : Emitter ι φ) (name : Text) (fp : π) (i : ι) (sent : Bool)
  | ended (e : Emitter ι φ) (thrown : Option Exception)
  /-- The client gets the emission. -/
  | arrived (i : ι) (e : Emitter ι φ) (name : Text) (fp : π)

/-- The slot of the session sends a request to its client when the emission comes to it. -/
def Hub.sends (s : Hub ι φ π) (e : Emitter ι φ) (em : Emission ι π) (i : ι) :
    Bool :=
  match (s.session i).step (if e = .loop i then .reach else .emit em.name) with
  | .next server => !(server.sent.drop (s.session i).sent.length).isEmpty
  | _ => false

/-- What is seen of an event. -/
def Hub.see (s : Hub ι φ π) : HubEvent ι φ π → Option (Noticed ι φ π)
  | .clientRead i =>
      match s.toClient i with
      | .emission e name fp :: _ => some (.arrived i e name fp)
      | _ => none
  | .serverRead i =>
      match s.toServer i with
      | .connectSignal sig count :: _ => some (.connected i sig count)
      | .emission name fp :: _ =>
          if ((s.session i).functors name).isSome then some (.began (.loop i) name fp) else none
      | _ => none
  | .emit f name fp => some (.began (.fiber f) name fp)
  | .slot e i => (s.emission e).map fun em => .came e em.name em.fp i (s.sends e em i)
  | .finish e thrown => some (.ended e thrown)
  | .report _ _ _ | .invoke _ _ _ => none

/-! ## What clients should get -/

/-- An emission that has begun and has not ended. -/
structure Underway (ι π : Type) where
  name : Text
  fp : π
  /-- The sessions whose slots it has come to. -/
  called : List ι

/-- The latest count that the session of a client has got for a signal. -/
def countOf (i : ι) (name : Text) : List (Noticed ι φ π) → Int :=
  List.foldl (fun latest n =>
    match n with
    | .connected j sig count => if j = i ∧ sig = name then count else latest
    | _ => latest) 0

/-- What this fiber emits. -/
def underway (e : Emitter ι φ) : List (Noticed ι φ π) → Option (Underway ι π) :=
  List.foldl (fun u n =>
    match n with
    | .began e' name fp => if e' = e then some ⟨name, fp, []⟩ else u
    | .came e' _ _ i _ =>
        if e' = e then u.map fun u => { u with called := u.called ++ [i] } else u
    | .ended e' _ => if e' = e then none else u
    | _ => u) none

/-- What is sent to the client. -/
def Noticed.sentTo (i : ι) : Noticed ι φ π → List (Emitter ι φ × Text × π)
  | .came e name fp j true => if j = i then [(e, name, fp)] else []
  | _ => []

/-- What the client gets. -/
def Noticed.arrivedAt (i : ι) : Noticed ι φ π → List (Emitter ι φ × Text × π)
  | .arrived j e name fp => if j = i then [(e, name, fp)] else []
  | _ => []

/-- What is on its way to a client. -/
def emissionsOnTheWay : List (FromServer ι φ π) → List (Emitter ι φ × Text × π) :=
  List.filterMap fun
    | .emission e name fp => some (e, name, fp)
    | .response => none

/-- An emission comes to every slot once. The slot of a session sends it to the client exactly where
the client has not made it, has slots of its own, as far as its session knows, and no emission of
this client of the same signal is being delivered. -/
structure Broadcasts (h : List (Noticed ι φ π)) : Prop where
  slot : ∀ past rest e name fp i sent, h = past ++ .came e name fp i sent :: rest →
    (∃ called, underway e past = some ⟨name, fp, called⟩ ∧ i ∉ called) ∧
      (sent = true ↔ e ≠ .loop i ∧ countOf i name past ≠ 0 ∧
        ∀ u, underway (.loop i) past = some u → u.name ≠ name)
  complete : ∀ past rest e, h = past ++ .ended e none :: rest →
    ∃ u, underway e past = some u ∧ ∀ i, i ∈ u.called

/-! ## What an event can do -/

/-- `Happens s e s'` says what the event `e` does. -/
inductive Happens [Fintype ι] (s : Hub ι φ π) : HubEvent ι φ π → Hub ι φ π → Prop where
  | reported (i : ι) (sig : Text) (count : Int) :
      Happens s (.report i sig count) (s.sendUp i (.connectSignal sig count))
  | invoked (i : ι) (name : Text) (fp : π) :
      Happens s (.invoke i name fp) (s.sendUp i (.emission name fp))
  | arrived (i : ι) (e : Emitter ι φ) (name : Text) (fp : π) (rest : List (FromServer ι φ π)) :
      s.toClient i = .emission e name fp :: rest →
      Happens s (.clientRead i) ((s.takeDown i rest).sendUp i (.response e))
  | answered (i : ι) (rest : List (FromServer ι φ π)) :
      s.toClient i = .response :: rest → Happens s (.clientRead i) (s.takeDown i rest)
  | connected (i : ι) (sig : Text) (count : Int) (rest : List (FromClient ι φ π))
      (server : Server) :
      s.toServer i = .connectSignal sig count :: rest →
      (s.session i).step (.connectSignal sig count) = .next server →
      Happens s (.serverRead i) (((s.take i rest).put i server).sendDown i [.response])
  | received (i : ι) (name : Text) (fp : π) (rest : List (FromClient ι φ π)) (server : Server) :
      s.toServer i = .emission name fp :: rest → (s.session i).step (.receive name) = .next server →
      Happens s (.serverRead i)
        (((s.take i rest).put i server).set (.loop i) (some ⟨name, fp, Finset.univ, none⟩))
  | refused (i : ι) (name : Text) (fp : π) (rest : List (FromClient ι φ π)) :
      s.toServer i = .emission name fp :: rest → (s.session i).functors name = none →
      Happens s (.serverRead i) ((s.take i rest).sendDown i [.response])
  | responded (i : ι) (e : Emitter ι φ) (rest : List (FromClient ι φ π)) :
      s.toServer i = .response e :: rest → (s.session i).delivery = none →
      Happens s (.serverRead i) ((s.take i rest).resume i e)
  | emitted (f : φ) (name : Text) (fp : π) :
      s.emission (.fiber f) = none → (∀ i, ((s.session i).functors name).isSome) →
      Happens s (.emit f name fp) (s.set (.fiber f) (some ⟨name, fp, Finset.univ, none⟩))
  | reached (e : Emitter ι φ) (em : Emission ι π) (i : ι) (server : Server) :
      s.emission e = some em → em.waiting = none → i ∈ em.left →
      (s.session i).step (if e = .loop i then .reach else .emit em.name) = .next server →
      Happens s (.slot e i) (s.called e em i server)
  | ended (f : φ) (em : Emission ι π) (thrown : Option Exception) :
      s.emission (.fiber f) = some em → em.waiting = none → (thrown = none → em.left = ∅) →
      Happens s (.finish (.fiber f) thrown) (s.set (.fiber f) none)
  | returned (i : ι) (em : Emission ι π) (thrown : Option Exception) (server : Server) :
      s.emission (.loop i) = some em → em.waiting = none → (thrown = none → em.left = ∅) →
      thrown ≠ some .foreign → (s.session i).step (.finish thrown) = .next server →
      Happens s (.finish (.loop i) thrown)
        (((s.put i server).set (.loop i) none).sendDown i [.response])
  | escaped (i : ι) (em : Emission ι π) (server : Server) :
      s.emission (.loop i) = some em → em.waiting = none →
      (s.session i).step (.finish (some .foreign)) = .next server →
      Happens s (.finish (.loop i) (some .foreign))
        (((s.put i server).set (.loop i) none).leave i)

/-- A step is one of those. -/
theorem happens_of_step [Fintype ι] {s s' : Hub ι φ π} {e : HubEvent ι φ π}
    (h : s.step e = .next s') : Happens s e s' := by
  cases e with
  | report i sig count =>
      cases h
      exact .reported i sig count
  | invoke i name fp =>
      cases h
      exact .invoked i name fp
  | clientRead i =>
      simp only [Hub.step] at h
      split at h
      · rename_i e name fp rest hhead
        cases h
        exact .arrived i e name fp rest hhead
      · rename_i rest hhead
        cases h
        exact .answered i rest hhead
      · cases h
  | serverRead i =>
      simp only [Hub.step] at h
      split at h
      swap
      · cases h
      rename_i hready
      have hidle : (s.session i).delivery = none :=
        Option.isNone_iff_eq_none.mp (Bool.and_eq_true_iff.mp hready).2
      split at h
      · rename_i sig count rest hhead
        obtain ⟨server, hserver, rfl⟩ := Result.map_eq_next.mp h
        exact .connected i sig count rest server hhead hserver
      · rename_i name fp rest hhead
        split at h
        · obtain ⟨server, hserver, rfl⟩ := Result.map_eq_next.mp h
          exact .received i name fp rest server hhead hserver
        · rename_i hunknown
          cases h
          exact .refused i name fp rest hhead hunknown
      · rename_i e rest hhead
        cases h
        exact .responded i e rest hhead hidle
      · cases h
  | emit f name fp =>
      simp only [Hub.step] at h
      split at h
      · rename_i hcan
        cases h
        exact .emitted f name fp (Option.isNone_iff_eq_none.mp hcan.1) hcan.2
      · cases h
  | slot e i =>
      simp only [Hub.step] at h
      split at h
      · rename_i em hem
        split at h
        · rename_i hcan
          obtain ⟨server, hserver, rfl⟩ := Result.map_eq_next.mp h
          exact .reached e em i server hem hcan.1 hcan.2 hserver
        · cases h
      · cases h
  | finish e thrown =>
      simp only [Hub.step] at h
      split at h
      · rename_i em hem
        split at h
        · rename_i hcan
          split at h
          · rename_i f
            cases h
            exact .ended f em thrown hem hcan.1 hcan.2
          · rename_i i
            obtain ⟨server, hserver, hs⟩ := Result.map_eq_next.mp h
            split at hs
            · cases hs
              exact .escaped i em server hem hcan.1 hserver
            · rename_i hcaught
              cases hs
              exact .returned i em thrown server hem hcan.1 hcan.2 hcaught hserver
        · cases h
      · cases h

/-! ## The sessions and what has been seen -/

omit [DecidableEq φ] in
theorem count_of_append (i : ι) (name : Text) (h : List (Noticed ι φ π)) (n : Noticed ι φ π) :
    countOf i name (h ++ [n]) =
      match n with
      | .connected j sig count => if j = i ∧ sig = name then count else countOf i name h
      | _ => countOf i name h := by
  rw [countOf, List.foldl_append]
  cases n <;> rfl

theorem underway_append (e : Emitter ι φ) (h : List (Noticed ι φ π)) (n : Noticed ι φ π) :
    underway e (h ++ [n]) =
      match n with
      | .began e' name fp => if e' = e then some ⟨name, fp, []⟩ else underway e h
      | .came e' _ _ i _ =>
          if e' = e then (underway e h).map fun u => { u with called := u.called ++ [i] }
          else underway e h
      | .ended e' _ => if e' = e then none else underway e h
      | _ => underway e h := by
  rw [underway, List.foldl_append]
  cases n <;> rfl

/-- The name of the emission of its client that a session delivers. -/
def Server.delivered (s : Server) : Option Text := s.delivery.map fun d => d.functor.name

/-- The emission is the one that has been seen. -/
structure Emission.Is (em : Emission ι π) (u : Underway ι π) : Prop where
  name : u.name = em.name
  fp : u.fp = em.fp
  called : ∀ i, i ∈ u.called ↔ i ∉ em.left

/-- The sessions behind what has been seen. -/
structure Follows (names : List Text) (h : List (Noticed ι φ π)) (s : Hub ι φ π) : Prop where
  session : ∀ i, ∃ past, Tracks past (s.session i) ∧
    ∀ name, latestCount name past = countOf i name h
  interface : ∀ i name, ((s.session i).functors name).isSome ↔ name ∈ names
  delivery : ∀ i, (s.session i).delivered = (s.emission (.loop i)).map Emission.name
  emission : ∀ e, Option.Rel Emission.Is (s.emission e) (underway e h)
  known : ∀ e em, s.emission e = some em → ι → em.name ∈ names

section Server

variable {s s' : Server} {name : Text} {ev : SignalEvent}

/-- The interface stays. -/
theorem Server.step_functors (h : s.step ev = .next s') : s'.functors = s.functors := by
  cases ev with
  | connectSignal sig count =>
      obtain ⟨-, rfl⟩ := Server.step_connect_signal h
      rfl
  | receive name =>
      obtain ⟨f, -, -, rfl⟩ := Server.step_receive h
      rfl
  | reach =>
      obtain ⟨d, -, rfl⟩ := Server.step_reach h
      exact call_slot_functors s d.functor
  | finish thrown =>
      obtain ⟨d, -, rfl⟩ := Server.step_finish h
      rfl
  | emit name =>
      obtain ⟨f, -, rfl⟩ := Server.step_emit h
      exact call_slot_functors s f

/-- What is delivered behind a step. -/
theorem Server.step_delivered (hwired : s.Wired) (h : s.step ev = .next s') :
    s'.delivered =
      match ev with
      | .receive name => some name
      | .finish _ => none
      | _ => s.delivered := by
  cases ev with
  | connectSignal sig count =>
      obtain ⟨-, rfl⟩ := Server.step_connect_signal h
      rfl
  | receive name =>
      obtain ⟨f, hf, -, rfl⟩ := Server.step_receive h
      exact congrArg some (hwired.name name f hf)
  | reach =>
      obtain ⟨d, -, rfl⟩ := Server.step_reach h
      rw [Server.delivered, call_slot_delivery]
      rfl
  | finish thrown =>
      obtain ⟨d, -, rfl⟩ := Server.step_finish h
      rfl
  | emit name =>
      obtain ⟨f, -, rfl⟩ := Server.step_emit h
      rw [Server.delivered, call_slot_delivery]
      rfl

theorem Server.delivers_iff : s.Delivers name ↔ s.delivered = some name :=
  Option.map_eq_some_iff.symm

/-- An emission that comes to the slot is sent where the client is connected and none of its own is
being delivered. -/
theorem sent_at_slot {past : List SignalEvent} (h : Tracks past s)
    (hstep : s.step (.emit name) = .next s') :
    s'.sent.drop s.sent.length =
      if latestCount name past ≠ 0 ∧ s.delivered ≠ some name then [name] else [] := by
  by_cases hcount : latestCount name past = 0
  · rw [sent_of_zero h hstep hcount, if_neg fun hand => hand.1 hcount]
  by_cases hquiet : s.delivered = some name
  · obtain ⟨f, hf, rfl⟩ := Server.step_emit hstep
    have hblocked := (h.flag name f hf).mpr (.inr (Server.delivers_iff.mpr hquiet))
    rw [(call_slot_sent s f).2.mpr hblocked, List.drop_length, if_neg fun hand => hand.2 hquiet]
  · rw [sent_of_count h hstep hcount fun hd => hquiet (Server.delivers_iff.mp hd),
      if_pos ⟨hcount, hquiet⟩]

end Server

namespace Follows

variable {names : List Text} {h h' : List (Noticed ι φ π)} {s s' : Hub ι φ π}

theorem new (names : List Text) : Follows names [] (.new names : Hub ι φ π) := by
  have hvisited := visited_new names
  have hfunctors : ∀ name, ((Server.new names).functors name).isSome ↔ name ∈ names := by
    intro name
    have hfold : ∀ (s : Server), ((names.foldl Server.visit s).functors name).isSome ↔
        (s.functors name).isSome ∨ name ∈ names := by
      clear hvisited
      induction names with
      | nil => simp
      | cons other names ih =>
          intro s
          rw [List.foldl_cons, ih]
          by_cases hname : name = other
          · simp [Server.visit, hname]
          · simp [Server.visit, hname]
    exact (hfold .empty).trans (or_iff_right Bool.false_ne_true)
  exact
    { session := fun i => ⟨[], tracks_new names, fun name => rfl⟩
      interface := fun i => hfunctors
      delivery := fun i => congrArg (Option.map fun d : Delivery => d.functor.name) hvisited.idle
      emission := fun e => .none
      known := fun e em hem => (Option.some_ne_none em hem.symm).elim }

/-- The emission that a fiber makes has been seen. -/
theorem seen (hf : Follows names h s) {e : Emitter ι φ} {em : Emission ι π}
    (hem : s.emission e = some em) : ∃ u, underway e h = some u ∧ em.Is u := by
  have hrel := hf.emission e
  rw [hem] at hrel
  generalize underway e h = seen at hrel ⊢
  cases hrel with
  | some his => exact ⟨_, rfl, his⟩

/-- It has been seen under its name. -/
theorem name_underway (hf : Follows names h s) (e : Emitter ι φ) :
    (s.emission e).map Emission.name = (underway e h).map Underway.name := by
  have hrel := hf.emission e
  generalize s.emission e = em at hrel ⊢
  generalize underway e h = seen at hrel ⊢
  cases hrel with
  | none => rfl
  | some his => exact congrArg some his.name.symm

/-- What the session of a client delivers has begun and has not ended. -/
theorem delivered_underway (hf : Follows names h s) (i : ι) (name : Text) :
    (s.session i).delivered = some name ↔
      ∃ u, underway (.loop i) h = some u ∧ u.name = name := by
  rw [hf.delivery i, hf.name_underway, Option.map_eq_some_iff]

/-- An emission begins, goes on or ends as it is seen to. -/
theorem emission_update (hf : Follows names h s) {e : Emitter ι φ} {em : Option (Emission ι π)}
    (hem : Option.Rel Emission.Is em (underway e h'))
    (hother : ∀ e', e' ≠ e → underway e' h' = underway e' h) (e' : Emitter ι φ) :
    Option.Rel Emission.Is (Function.update s.emission e em e') (underway e' h') := by
  by_cases he : e' = e
  · rw [he, Function.update_self]
    exact hem
  · rw [Function.update_of_ne he, hother e' he]
    exact hf.emission e'

theorem known_update (hf : Follows names h s) {e e' : Emitter ι φ} {em : Option (Emission ι π)}
    {em' : Emission ι π} (hknown : ∀ em', em = some em' → ι → em'.name ∈ names)
    (hem' : Function.update s.emission e em e' = some em') : ι → em'.name ∈ names := by
  by_cases he : e' = e
  · rw [he, Function.update_self] at hem'
    exact hknown em' hem'
  · rw [Function.update_of_ne he] at hem'
    exact hf.known e' em' hem'

/-- Nothing happens to the signals. -/
theorem apart (hf : Follows names h s) (hsession : s'.session = s.session)
    (hemission : s'.emission = s.emission) : Follows names h s' where
  session i := by
    rw [hsession]
    exact hf.session i
  interface i := by
    rw [hsession]
    exact hf.interface i
  delivery i := by
    rw [hsession, hemission]
    exact hf.delivery i
  emission e := by
    rw [hemission]
    exact hf.emission e
  known e em hem := by
    rw [hemission] at hem
    exact hf.known e em hem

/-- A client gets an emission. -/
theorem arrived (hf : Follows names h s) (i : ι) (e : Emitter ι φ) (name : Text) (fp : π) :
    Follows names (h ++ [.arrived i e name fp]) s where
  session j := by
    obtain ⟨past, htracks, hcount⟩ := hf.session j
    refine ⟨past, htracks, fun other => ?_⟩
    rw [count_of_append, hcount]
  interface := hf.interface
  delivery := hf.delivery
  emission e' := by
    rw [underway_append]
    exact hf.emission e'
  known := hf.known

/-- One emission changes. -/
theorem moved (hf : Follows names h s) (e : Emitter ι φ) {em : Option (Emission ι π)}
    (hsession : s'.session = s.session) (hemission : s'.emission = Function.update s.emission e em)
    (hcount : ∀ i name, countOf i name h' = countOf i name h)
    (hname : ∀ i, e = .loop i → em.map Emission.name = (s.emission e).map Emission.name)
    (hem : Option.Rel Emission.Is em (underway e h'))
    (hother : ∀ e', e' ≠ e → underway e' h' = underway e' h)
    (hknown : ∀ em', em = some em' → ι → em'.name ∈ names) : Follows names h' s' where
  session i := by
    obtain ⟨past, htracks, hlatest⟩ := hf.session i
    rw [hsession]
    refine ⟨past, htracks, fun name => ?_⟩
    rw [hlatest, hcount]
  interface i := by
    rw [hsession]
    exact hf.interface i
  delivery i := by
    rw [hsession, hemission, hf.delivery i]
    by_cases hi : Emitter.loop i = e
    · rw [hi, Function.update_self, hname i hi.symm]
    · rw [Function.update_of_ne hi]
  emission e' := by
    rw [hemission]
    exact hf.emission_update hem hother e'
  known e' em' hem' := by
    rw [hemission] at hem'
    exact hf.known_update hknown hem'

/-- A session takes a step. -/
theorem served (hf : Follows names h s) {i : ι} {ev : SignalEvent} {server : Server}
    (hserver : (s.session i).step ev = .next server)
    (hcounts : ∀ past, (∀ name, latestCount name past = countOf i name h) → ∀ name,
      latestCount name (past ++ [ev]) = countOf i name h')
    (hothers : ∀ j name, j ≠ i → countOf j name h' = countOf j name h)
    (hsession : s'.session = Function.update s.session i server)
    (hdelivered : server.delivered = (s'.emission (.loop i)).map Emission.name)
    (hnames : ∀ j, j ≠ i →
      (s'.emission (.loop j)).map Emission.name = (s.emission (.loop j)).map Emission.name)
    (hemission : ∀ e, Option.Rel Emission.Is (s'.emission e) (underway e h'))
    (hknown : ∀ e em, s'.emission e = some em → ι → em.name ∈ names) :
    Follows names h' s' where
  session j := by
    rw [hsession]
    by_cases hj : j = i
    · subst hj
      obtain ⟨past, htracks, hlatest⟩ := hf.session j
      rw [Function.update_self]
      exact ⟨past ++ [ev], htracks.step hserver, hcounts past hlatest⟩
    · obtain ⟨past, htracks, hlatest⟩ := hf.session j
      rw [Function.update_of_ne hj]
      refine ⟨past, htracks, fun name => ?_⟩
      rw [hlatest, hothers j name hj]
  interface j name := by
    rw [hsession]
    by_cases hj : j = i
    · rw [hj, Function.update_self, Server.step_functors hserver]
      exact hf.interface i name
    · rw [Function.update_of_ne hj]
      exact hf.interface j name
  delivery j := by
    rw [hsession]
    by_cases hj : j = i
    · rw [hj, Function.update_self, hdelivered]
    · rw [Function.update_of_ne hj, hnames j hj]
      exact hf.delivery j
  emission := hemission
  known := hknown

/-- A session ends a delivery. -/
theorem finished (hf : Follows names h s) {i : ι} {thrown : Option Exception} {server : Server}
    (hserver : (s.session i).step (.finish thrown) = .next server) :
    Follows names (h ++ [.ended (.loop i) thrown]) ((s.put i server).set (.loop i) none) := by
  obtain ⟨past, htracks, -⟩ := hf.session i
  refine hf.served hserver (fun past hlatest name => ?_) (fun j name _ => ?_) rfl ?_
    (fun j hj => ?_) (hf.emission_update ?_ fun e he => ?_) fun e em => hf.known_update nofun
  · rw [latest_count_append, count_of_append, hlatest]
  · rw [count_of_append]
  · rw [Server.step_delivered htracks.toWired hserver]
    show _ = (Function.update s.emission (.loop i) _ (.loop i)).map Emission.name
    rw [Function.update_self]
    rfl
  · show (Function.update s.emission (.loop i) _ (.loop j)).map _ = _
    rw [Function.update_of_ne fun heq => hj (Emitter.loop.inj heq)]
  · simp only [underway_append, if_true]
    exact .none
  · simp only [underway_append, if_neg (Ne.symm he)]

end Follows

/-- A step keeps to what is seen of it. -/
theorem Follows.step [Fintype ι] {names : List Text} {h : List (Noticed ι φ π)} {s s' : Hub ι φ π}
    {ev : HubEvent ι φ π} (hf : Follows names h s) (hstep : s.step ev = .next s') :
    Follows names (h ++ (s.see ev).toList) s' := by
  cases happens_of_step hstep with
  | reported i sig count =>
      rw [Hub.see, Option.toList_none, List.append_nil]
      exact hf.apart rfl rfl
  | invoked i name fp =>
      rw [Hub.see, Option.toList_none, List.append_nil]
      exact hf.apart rfl rfl
  | arrived i e name fp rest hhead =>
      simp only [Hub.see, hhead, Option.toList_some]
      exact (hf.arrived i e name fp).apart rfl rfl
  | answered i rest hhead =>
      simp only [Hub.see, hhead, Option.toList_none, List.append_nil]
      exact hf.apart rfl rfl
  | connected i sig count rest server hhead hserver =>
      obtain ⟨past, htracks, -⟩ := hf.session i
      simp only [Hub.see, hhead, Option.toList_some]
      refine hf.served hserver (fun past hlatest name => ?_) (fun j name hj => ?_) rfl ?_
        (fun _ _ => rfl) (fun e => ?_) hf.known
      · simp only [latest_count_append, count_of_append, hlatest, true_and]
      · simp only [count_of_append, if_neg fun hand : i = j ∧ sig = name => hj hand.1.symm]
      · rw [Server.step_delivered htracks.toWired hserver]
        exact hf.delivery i
      · rw [underway_append]
        exact hf.emission e
  | received i name fp rest server hhead hserver =>
      obtain ⟨past, htracks, -⟩ := hf.session i
      obtain ⟨f, hfunctor, -, -⟩ := Server.step_receive hserver
      have hknown : name ∈ names := (hf.interface i name).mp (by rw [hfunctor]; rfl)
      simp only [Hub.see, hhead, hfunctor, Option.isSome_some, if_true, Option.toList_some]
      refine hf.served hserver (fun past hlatest other => ?_) (fun j other _ => ?_) rfl ?_
        (fun j hj => ?_) (hf.emission_update ?_ fun e he => ?_) fun e em => hf.known_update ?_
      · rw [latest_count_append, count_of_append, hlatest]
      · rw [count_of_append]
      · rw [Server.step_delivered htracks.toWired hserver]
        show _ = (Function.update s.emission (.loop i) _ (.loop i)).map Emission.name
        rw [Function.update_self]
        rfl
      · show (Function.update s.emission (.loop i) _ (.loop j)).map _ = _
        rw [Function.update_of_ne fun heq => hj (Emitter.loop.inj heq)]
      · simp only [underway_append, if_true]
        exact .some ⟨rfl, rfl, fun j => by simp⟩
      · simp only [underway_append, if_neg (Ne.symm he)]
      · rintro em ⟨⟩ -
        exact hknown
  | refused i name fp rest hhead hunknown =>
      simp only [Hub.see, hhead, hunknown, Option.isSome_none, Bool.false_eq_true, if_false,
        Option.toList_none, List.append_nil]
      exact hf.apart rfl rfl
  | responded i e rest hhead hidle =>
      simp only [Hub.see, hhead, Option.toList_none, List.append_nil]
      rw [Hub.resume]
      split
      · rename_i em hem
        split
        · change s.emission e = some em at hem
          obtain ⟨u, hu, his⟩ := hf.seen hem
          refine hf.moved e rfl rfl (fun _ _ => rfl) (fun i _ => ?_) ?_ (fun _ _ => rfl) ?_
          · rw [hem]
            rfl
          · rw [hu]
            exact .some ⟨his.name, his.fp, his.called⟩
          · rintro em' ⟨⟩
            exact hf.known e em hem
        · exact hf.apart rfl rfl
      · exact hf.apart rfl rfl
  | emitted f name fp hnone hknown =>
      rw [Hub.see, Option.toList_some]
      refine hf.moved (.fiber f) rfl rfl (fun i other => ?_) (fun i hi => nomatch hi) ?_
        (fun e he => ?_) ?_
      · rw [count_of_append]
      · simp only [underway_append, if_true]
        exact .some ⟨rfl, rfl, fun j => by simp⟩
      · simp only [underway_append, if_neg (Ne.symm he)]
      · rintro em ⟨⟩ i
        exact (hf.interface i name).mp (hknown i)
  | reached e em i server hem hwaiting hleft hserver =>
      obtain ⟨past, htracks, -⟩ := hf.session i
      simp only [Hub.see, hem, Option.map_some, Option.toList_some]
      have hplain : (if e = .loop i then SignalEvent.reach else .emit em.name).Plain = true := by
        split <;> rfl
      have hloop : ∀ j, ((s.called e em i server).emission (.loop j)).map Emission.name =
          (s.emission (.loop j)).map Emission.name := by
        intro j
        show (Function.update s.emission e _ (.loop j)).map Emission.name = _
        by_cases hj : Emitter.loop j = e
        · rw [hj, Function.update_self, hem]
          rfl
        · rw [Function.update_of_ne hj]
      refine hf.served hserver (fun past hlatest name => ?_) (fun j name _ => ?_) rfl ?_
        (fun j _ => hloop j) (hf.emission_update ?_ fun e' he => ?_) fun e' em' =>
          hf.known_update ?_
      · rw [(counts_handled_plain hplain name past).2, hlatest, count_of_append]
      · rw [count_of_append]
      · rw [hloop, ← hf.delivery i]
        by_cases he : e = .loop i
        · rw [if_pos he] at hserver
          exact Server.step_delivered htracks.toWired hserver
        · rw [if_neg he] at hserver
          exact Server.step_delivered htracks.toWired hserver
      · obtain ⟨u, hu, his⟩ := hf.seen hem
        simp only [underway_append, if_true, hu]
        refine .some ⟨his.name, his.fp, fun j => ?_⟩
        have hj := his.called j
        simp only [List.mem_append, List.mem_singleton, Finset.mem_erase, hj]
        tauto
      · simp only [underway_append, if_neg (Ne.symm he)]
      · rintro em' ⟨⟩
        exact hf.known e em hem
  | ended f em thrown hem hwaiting hleft =>
      rw [Hub.see, Option.toList_some]
      refine hf.moved (.fiber f) rfl rfl (fun i other => ?_) (fun i hi => nomatch hi) ?_
        (fun e he => ?_) nofun
      · rw [count_of_append]
      · simp only [underway_append, if_true]
        exact .none
      · simp only [underway_append, if_neg (Ne.symm he)]
  | returned i em thrown server hem hwaiting hleft hcaught hserver =>
      rw [Hub.see, Option.toList_some]
      exact (hf.finished hserver).apart rfl rfl
  | escaped i em server hem hwaiting hserver =>
      rw [Hub.see, Option.toList_some]
      exact (hf.finished hserver).apart rfl rfl

/-! ## Who gets what -/

section Runs

variable {names : List Text} {h : List (Noticed ι φ π)} {s s' : Hub ι φ π}

/-- The last of what has been seen is this, or it stands in front of it. -/
theorem last_or_before {α : Type} {l past rest : List α} {n x : α}
    (h : l ++ [n] = past ++ x :: rest) :
    (past = l ∧ n = x) ∨ ∃ rest', l = past ++ x :: rest' := by
  rcases List.eq_nil_or_concat rest with rfl | ⟨rest', m, rfl⟩
  · obtain ⟨rfl, hx⟩ := List.append_inj' h rfl
    exact .inl ⟨rfl, (List.cons.inj hx).1⟩
  · have heq : l ++ [n] = (past ++ x :: rest') ++ [m] := by
      rw [h, List.concat_eq_append, List.append_assoc, List.cons_append]
    exact .inr ⟨rest', (List.append_inj' heq rfl).1⟩

/-- What the slot of a session sends. -/
theorem Follows.sent (hf : Follows names h s) {e : Emitter ι φ} {em : Emission ι π} {i : ι}
    {server : Server}
    (hserver : (s.session i).step (if e = .loop i then .reach else .emit em.name) = .next server) :
    server.sent.drop (s.session i).sent.length =
      if e ≠ .loop i ∧ countOf i em.name h ≠ 0 ∧ (s.session i).delivered ≠ some em.name
      then [em.name] else [] := by
  obtain ⟨past, htracks, hlatest⟩ := hf.session i
  by_cases he : e = .loop i
  · rw [if_pos he] at hserver
    rw [sent_of_reach htracks hserver, if_neg fun hand => hand.1 he]
  · rw [if_neg he] at hserver
    rw [sent_at_slot htracks hserver, hlatest]
    by_cases hsent : countOf i em.name h ≠ 0 ∧ (s.session i).delivered ≠ some em.name
    · rw [if_pos hsent, if_pos ⟨he, hsent⟩]
    · rw [if_neg hsent, if_neg fun hand => hsent hand.2]

/-- One more thing is seen. -/
theorem Broadcasts.append {n : Noticed ι φ π} (hb : Broadcasts h)
    (hslot : ∀ e name fp i sent, n = .came e name fp i sent →
      (∃ called, underway e h = some ⟨name, fp, called⟩ ∧ i ∉ called) ∧
        (sent = true ↔ e ≠ .loop i ∧ countOf i name h ≠ 0 ∧
          ∀ u, underway (.loop i) h = some u → u.name ≠ name))
    (hcomplete : ∀ e, n = .ended e none → ∃ u, underway e h = some u ∧ ∀ i, i ∈ u.called) :
    Broadcasts (h ++ [n]) where
  slot past rest e name fp i sent heq := by
    rcases last_or_before heq with ⟨rfl, hn⟩ | ⟨rest', hrest⟩
    · exact hslot e name fp i sent hn
    · exact hb.slot past rest' e name fp i sent hrest
  complete past rest e heq := by
    rcases last_or_before heq with ⟨rfl, hn⟩ | ⟨rest', hrest⟩
    · exact hcomplete e hn
    · exact hb.complete past rest' e hrest

variable [Fintype ι]

/-- A step broadcasts. -/
theorem Broadcasts.step {ev : HubEvent ι φ π} (hb : Broadcasts h) (hf : Follows names h s)
    (hstep : s.step ev = .next s') : Broadcasts (h ++ (s.see ev).toList) := by
  -- an emission ends behind the last slot
  have hended : ∀ e em thrown, s.emission e = some em → (thrown = none → em.left = ∅) →
      ∀ e', Noticed.ended e thrown = (.ended e' none : Noticed ι φ π) →
        ∃ u, underway e' h = some u ∧ ∀ i, i ∈ u.called := by
    rintro e em thrown hem hleft e' ⟨⟩
    obtain ⟨u, hu, his⟩ := hf.seen hem
    refine ⟨u, hu, fun i => (his.called i).mpr ?_⟩
    rw [hleft rfl]
    exact Finset.notMem_empty i
  cases happens_of_step hstep with
  | reported | invoked =>
      rw [Hub.see, Option.toList_none, List.append_nil]
      exact hb
  | arrived i e name fp rest hhead =>
      simp only [Hub.see, hhead, Option.toList_some]
      exact hb.append nofun nofun
  | answered i rest hhead =>
      simp only [Hub.see, hhead, Option.toList_none, List.append_nil]
      exact hb
  | connected i sig count rest server hhead hserver =>
      simp only [Hub.see, hhead, Option.toList_some]
      exact hb.append nofun nofun
  | received i name fp rest server hhead hserver =>
      obtain ⟨f, hfunctor, -, -⟩ := Server.step_receive hserver
      simp only [Hub.see, hhead, hfunctor, Option.isSome_some, if_true, Option.toList_some]
      exact hb.append nofun nofun
  | refused i name fp rest hhead hunknown =>
      simp only [Hub.see, hhead, hunknown, Option.isSome_none, Bool.false_eq_true, if_false,
        Option.toList_none, List.append_nil]
      exact hb
  | responded i e rest hhead hidle =>
      simp only [Hub.see, hhead, Option.toList_none, List.append_nil]
      exact hb
  | emitted f name fp hnone hknown =>
      rw [Hub.see, Option.toList_some]
      exact hb.append nofun nofun
  | reached e em i server hem hwaiting hleft hserver =>
      simp only [Hub.see, hem, Option.map_some, Option.toList_some]
      refine hb.append ?_ nofun
      rintro e' name fp i' sent ⟨⟩
      obtain ⟨u, hu, his⟩ := hf.seen hem
      refine ⟨⟨u.called, ?_, fun hcalled => (his.called i).mp hcalled hleft⟩, ?_⟩
      · rw [hu, ← his.name, ← his.fp]
      · have hquiet : (∀ u, underway (.loop i) h = some u → u.name ≠ em.name) ↔
            (s.session i).delivered ≠ some em.name := by
          rw [Ne, hf.delivered_underway]
          exact ⟨fun hall ⟨u, hu, hname⟩ => hall u hu hname, fun hnone u hu hname =>
            hnone ⟨u, hu, hname⟩⟩
        simp only [Hub.sends, hserver, hf.sent hserver, hquiet]
        split
        · rename_i hand
          exact iff_of_true rfl hand
        · rename_i hand
          exact iff_of_false nofun hand
  | ended f em thrown hem hwaiting hleft =>
      rw [Hub.see, Option.toList_some]
      exact hb.append nofun (hended _ em thrown hem hleft)
  | returned i em thrown server hem hwaiting hleft hcaught hserver =>
      rw [Hub.see, Option.toList_some]
      exact hb.append nofun (hended _ em thrown hem hleft)
  | escaped i em server hem hwaiting hserver =>
      rw [Hub.see, Option.toList_some]
      exact hb.append nofun nofun

omit [Fintype ι] [DecidableEq φ] in
/-- What is sent to one client. -/
theorem on_the_way_sent_down (toClient : ι → List (FromServer ι φ π)) (j i : ι)
    (msgs : List (FromServer ι φ π)) :
    emissionsOnTheWay (Function.update toClient j (toClient j ++ msgs) i) =
      emissionsOnTheWay (toClient i) ++ if j = i then emissionsOnTheWay msgs else [] := by
  by_cases hj : j = i
  · rw [hj, Function.update_self, if_pos rfl, emissionsOnTheWay, List.filterMap_append]
  · rw [Function.update_of_ne (Ne.symm hj), if_neg hj, List.append_nil]

omit [Fintype ι] [DecidableEq φ] in
/-- A response is no emission. -/
theorem on_the_way_answer (toClient : ι → List (FromServer ι φ π)) (j i : ι) :
    emissionsOnTheWay (Function.update toClient j (toClient j ++ [.response]) i) =
      emissionsOnTheWay (toClient i) := by
  rw [on_the_way_sent_down]
  show _ ++ (if j = i then [] else []) = _
  rw [ite_self, List.append_nil]

omit [Fintype ι] in
@[simp] theorem resume_to_client (s : Hub ι φ π) (i : ι) (e : Emitter ι φ) :
    (s.resume i e).toClient = s.toClient := by
  unfold Hub.resume
  split
  · split <;> rfl
  · rfl

omit [Fintype ι] in
@[simp] theorem resume_to_server (s : Hub ι φ π) (i : ι) (e : Emitter ι φ) :
    (s.resume i e).toServer = s.toServer := by
  unfold Hub.resume
  split
  · split <;> rfl
  · rfl

/-- What a client gets behind a step, and what is on its way to it. -/
theorem Follows.on_the_way {ev : HubEvent ι φ π} (hf : Follows names h s)
    (hstep : s.step ev = .next s') (i : ι) :
    (s.see ev).toList.flatMap (Noticed.arrivedAt i) ++ emissionsOnTheWay (s'.toClient i) =
      emissionsOnTheWay (s.toClient i) ++ (s.see ev).toList.flatMap (Noticed.sentTo i) := by
  cases happens_of_step hstep with
  | reported | invoked => exact (List.append_nil _).symm
  | arrived j e name fp rest hhead =>
      simp only [Hub.see, hhead, Option.toList_some, List.flatMap_singleton, Noticed.arrivedAt,
        Noticed.sentTo, List.append_nil]
      show _ ++ emissionsOnTheWay (Function.update s.toClient j rest i) = _
      by_cases hj : j = i
      · subst hj
        rw [if_pos rfl, Function.update_self, hhead]
        rfl
      · rw [if_neg hj, Function.update_of_ne (Ne.symm hj)]
        rfl
  | answered j rest hhead =>
      simp only [Hub.see, hhead, Option.toList_none, List.flatMap_nil, List.append_nil,
        List.nil_append]
      show emissionsOnTheWay (Function.update s.toClient j rest i) = _
      by_cases hj : i = j
      · rw [hj, Function.update_self, hhead]
        rfl
      · rw [Function.update_of_ne hj]
  | connected j sig count rest server hhead hserver =>
      simp only [Hub.see, hhead, Option.toList_some, List.flatMap_singleton, Noticed.arrivedAt,
        Noticed.sentTo, List.append_nil, List.nil_append]
      exact on_the_way_answer s.toClient j i
  | received j name fp rest server hhead hserver =>
      obtain ⟨f, hfunctor, -, -⟩ := Server.step_receive hserver
      simp only [Hub.see, hhead, hfunctor, Option.isSome_some, if_true, Option.toList_some,
        List.flatMap_singleton, Noticed.arrivedAt, Noticed.sentTo, List.append_nil,
        List.nil_append]
      rfl
  | refused j name fp rest hhead hunknown =>
      simp only [Hub.see, hhead, hunknown, Option.isSome_none, Bool.false_eq_true, if_false,
        Option.toList_none, List.flatMap_nil, List.append_nil, List.nil_append]
      exact on_the_way_answer s.toClient j i
  | responded j e rest hhead hidle =>
      simp only [Hub.see, hhead, Option.toList_none, List.flatMap_nil, List.append_nil,
        List.nil_append]
      rw [resume_to_client]
      rfl
  | emitted f name fp hnone hknown => exact (List.append_nil _).symm
  | reached e em j server hem hwaiting hleft hserver =>
      simp only [Hub.see, hem, Option.map_some, Option.toList_some, List.flatMap_singleton,
        Noticed.arrivedAt, List.nil_append, Hub.sends, hserver]
      refine (on_the_way_sent_down _ j i _).trans ?_
      rw [hf.sent hserver]
      by_cases hsent : e ≠ .loop j ∧ countOf j em.name h ≠ 0 ∧
          (s.session j).delivered ≠ some em.name
      · rw [if_pos hsent]
        rfl
      · rw [if_neg hsent]
        exact congrArg _ (ite_self _)
  | ended f em thrown hem hwaiting hleft => exact (List.append_nil _).symm
  | returned j em thrown server hem hwaiting hleft hcaught hserver =>
      exact (on_the_way_answer s.toClient j i).trans (List.append_nil _).symm
  | escaped j em server hem hwaiting hserver => exact (List.append_nil _).symm

/-- Over every run, an emission of a signal comes once to the slot of every session, which sends it
to the clients that should get it and to no others, and each of them gets what is sent to it once
and in order. -/
theorem broadcast (htrace : Trace (hub ι φ π names) (fun _ _ => True) Hub.see h s) :
    Broadcasts h ∧ ∀ i, h.flatMap (Noticed.arrivedAt i) ++ emissionsOnTheWay (s.toClient i) =
      h.flatMap (Noticed.sentTo i) := by
  constructor
  · refine (htrace.traced (Q := fun h s => Broadcasts h ∧ Follows names h s) ?_ ?_).1
    · intro s hs
      obtain rfl := hs
      refine ⟨⟨fun past rest e name fp i sent heq => ?_, fun past rest e heq => ?_⟩, .new names⟩
      · exact absurd heq (by simp)
      · exact absurd heq (by simp)
    · intro h s ev s' hbf _ hstep
      exact ⟨hbf.1.step hbf.2 hstep, hbf.2.step hstep⟩
  · intro i
    refine (htrace.fifo (P := fun s => ∃ h, Follows names h s)
      (fun s => emissionsOnTheWay (s.toClient i)) (Noticed.sentTo i) (Noticed.arrivedAt i) [] ?_
      ?_).2
    · intro s hs
      obtain rfl := hs
      exact ⟨⟨[], .new names⟩, rfl⟩
    · rintro s ev s' ⟨h, hf⟩ _ hstep
      exact ⟨⟨_, hf.step hstep⟩, hf.on_the_way hstep i⟩

end Runs

end History

/-- Two clients of a server with these signals. -/
abbrev Pair (names : List Text) : System (Hub (Fin 2) Unit Int) (HubEvent (Fin 2) Unit Int) :=
  hub (Fin 2) Unit Int names

/-- One client has a slot, and gets the emission of the other. -/
theorem got_result_broadcast :
    ∃ h : List (Noticed (Fin 2) Unit Int), ∃ s : Hub (Fin 2) Unit Int,
      h.flatMap (Noticed.arrivedAt 1) = [(.loop 0, str "got_result", 7)] ∧ Broadcasts h ∧
        ∀ i, h.flatMap (Noticed.arrivedAt i) ++ emissionsOnTheWay (s.toClient i) =
          h.flatMap (Noticed.sentTo i) := by
  have start : Trace (Pair [str "got_result"]) (fun _ _ => True) Hub.see []
      (.new [str "got_result"]) := .start _ rfl
  have reported := Trace.step _ _ _ (.report 1 (str "got_result") 1) start trivial rfl
  have connected := Trace.step _ _ _ (.serverRead 1) reported trivial rfl
  have answered := Trace.step _ _ _ (.clientRead 1) connected trivial rfl
  have invoked := Trace.step _ _ _ (.invoke 0 (str "got_result") 7) answered trivial rfl
  have received := Trace.step _ _ _ (.serverRead 0) invoked trivial rfl
  have own := Trace.step _ _ _ (.slot (.loop 0) 0) received trivial rfl
  have other := Trace.step _ _ _ (.slot (.loop 0) 1) own trivial rfl
  have arrived := Trace.step _ _ _ (.clientRead 1) other trivial rfl
  obtain ⟨h, s, htrace, hgot⟩ : ∃ (h : List (Noticed (Fin 2) Unit Int))
      (s : Hub (Fin 2) Unit Int), Trace (Pair [str "got_result"]) (fun _ _ => True) Hub.see h s ∧
        h.flatMap (Noticed.arrivedAt 1) = [(.loop 0, str "got_result", 7)] :=
    ⟨_, _, arrived, rfl⟩
  exact ⟨h, s, hgot, broadcast htrace⟩

end BoostRpc.Json
