import BoostRpc.Json.Mirror

/-!
# Subscriptions

A client whose interface mirrors the signals of a server, and the two directions of the connection
between them. The mirrors report their slots by `rpc_connect_signal`, the server forwards its
emissions to a client that has slots, and the client emits them at its mirrors. Any number of fibers
connect, disconnect and emit at any time. The transport keeps the order of the messages and loses
none.

`subscription_stream` says what a slot gets from the moment on in which its connection has arrived,
and `unsubscribed_silent` when a server sends no emissions.
-/

namespace BoostRpc.Json

open Lts

variable {π : Type}

/-! ## The parties -/

/-- What the client sends. -/
inductive ToServer (π : Type) where
  /-- The request of `rpc_connect_delegate`. -/
  | connectSignal (sig : Text) (count : Int)
  /-- The request of the delegate of a mirror. -/
  | emission (name : Text) (fp : π)
  | response

/-- What the server sends. -/
inductive ToClient (π : Type) where
  /-- The request of the slot that forwards. -/
  | emission (name : Text) (fp : π)
  | response

/-- A client, a server and what is on its way between them. -/
structure Subscription (π : Type) where
  mirrors : Text → Mirror π
  server : Server
  /-- The emission of the client that the server delivers. -/
  delivered : Option π
  /-- No exception has left the `read_loop` of the server. -/
  serverReads : Bool
  toServer : List (ToServer π)
  toClient : List (ToClient π)

/-- The argument of `m_connect_delegate`, which is an `int`. -/
def reportedCount (numSlots : Nat) : Int := (Int32.ofNat numSlots).toInt

/-- `client::visitor` on a signal: `if_signal<true>::set_delegate`. -/
def Mirror.visited : Mirror π := { (Mirror.new : Mirror π).assign with reports := true }

/-- The method of the client for an emission: `mirror_member::emit`. -/
def Mirror.receive (m : Mirror π) (fp : π) : Mirror π :=
  { m with calls := m.calls ++ (m.emit m.flags fp).1, flags := (m.emit m.flags fp).2 }

/-- What a program does with a mirror that it has from a client. -/
def MirrorEvent.ByProgram : MirrorEvent π → Bool
  | .connect | .disconnect _ | .drop _ | .invoke _ => true
  | _ => false

/-- The requests of a mirror: what it has reported since, and the calls of its delegate. -/
def Mirror.requests (name : Text) (m m' : Mirror π) : List (ToServer π) :=
  (m'.reported.drop m.reported.length).map (fun n => .connectSignal name (reportedCount n)) ++
    ((m'.calls.drop m.calls.length).filterMap Call.delegate?).map (.emission name)

namespace Subscription

/-- Something has happened at a mirror. -/
def put (s : Subscription π) (name : Text) (m : Mirror π) : Subscription π :=
  { s with mirrors := Function.update s.mirrors name m }

/-- The slots that forward have been called with these parameters. -/
def forward (s : Subscription π) (server : Server) (fp : π) : Subscription π :=
  { s with
    server
    toClient := s.toClient ++
      (server.sent.drop s.server.sent.length).map fun name => .emission name fp }

end Subscription

/-- What happens at the client and at the server. -/
inductive SubscriptionEvent (π : Type) where
  /-- A fiber of the client uses a mirror. -/
  | client (name : Text) (e : MirrorEvent π)
  /-- The `read_loop` of the client takes a message. -/
  | clientRead
  /-- The `read_loop` of the server takes a message. -/
  | serverRead
  /-- The emission that the server delivers comes to the slot that forwards. -/
  | reach
  /-- The delivery ends. -/
  | finish (thrown : Option Exception)
  /-- The server emits a signal. -/
  | emit (name : Text) (fp : π)

/-- One event. -/
def Subscription.step (s : Subscription π) : SubscriptionEvent π → Result (Subscription π)
  | .client name e =>
      if e.ByProgram then
        match (s.mirrors name).step e with
        | .next m =>
            .next { s.put name m with toServer := s.toServer ++ (s.mirrors name).requests name m }
        | .undefined => .undefined
        | .impossible => .impossible
      else .impossible
  | .clientRead =>
      match s.toClient with
      | .emission name fp :: toClient =>
          .next { s.put name ((s.mirrors name).receive fp) with
            toClient, toServer := s.toServer ++ [.response] }
      | .response :: toClient => .next { s with toClient }
      | [] => .impossible
  | .serverRead =>
      if s.serverReads then
        match s.toServer with
        | .connectSignal sig count :: toServer =>
            match s.server.step (.connectSignal sig count) with
            | .next server =>
                .next { s with server, toServer, toClient := s.toClient ++ [.response] }
            | .undefined => .undefined
            | .impossible => .impossible
        | .emission name fp :: toServer =>
            match s.server.functors name with
            | some _ =>
                match s.server.step (.receive name) with
                | .next server => .next { s with server, toServer, delivered := some fp }
                | .undefined => .undefined
                | .impossible => .impossible
            -- an unknown method
            | none =>
                if s.server.delivery.isNone then
                  .next { s with toServer, toClient := s.toClient ++ [.response] }
                else .impossible
        | .response :: toServer =>
            if s.server.delivery.isNone then .next { s with toServer } else .impossible
        | [] => .impossible
      else .impossible
  | .reach =>
      match s.delivered, s.server.step .reach with
      | some fp, .next server => .next (s.forward server fp)
      | _, _ => .impossible
  | .finish thrown =>
      match s.server.step (.finish thrown) with
      | .next server =>
          match thrown with
          | some .foreign => .next { s with server, delivered := none, serverReads := false }
          | _ =>
              .next { s with
                server, delivered := none, toClient := s.toClient ++ [.response] }
      | .undefined => .undefined
      | .impossible => .impossible
  | .emit name fp =>
      match s.server.step (.emit name) with
      | .next server => .next (s.forward server fp)
      | .undefined => .undefined
      | .impossible => .impossible

/-- A new client and a new server of an interface with these signals. -/
def Subscription.new (names : List Text) : Subscription π where
  mirrors _ := .visited
  server := .new names
  delivered := none
  serverReads := true
  toServer := []
  toClient := []

/-- The two from their construction on. -/
def subscription (π : Type) (names : List Text) :
    System (Subscription π) (SubscriptionEvent π) where
  start s := s = .new names
  step := Subscription.step

/-! ## What is seen -/

/-- What is seen of the signals. -/
inductive Heard (π : Type) where
  /-- The server emits a signal itself. -/
  | emitted (name : Text) (fp : π)
  /-- An emission of the server comes to a mirror, which makes these calls. -/
  | arrived (name : Text) (fp : π) (calls : List (Call π))

/-- What is seen of an event. -/
def Subscription.see (s : Subscription π) : SubscriptionEvent π → Option (Heard π)
  | .emit name fp => some (.emitted name fp)
  | .clientRead =>
      match s.toClient with
      | .emission name fp :: _ =>
          some (.arrived name fp ((s.mirrors name).emit (s.mirrors name).flags fp).1)
      | _ => none
  | _ => none

/-- The parameters of the emissions that the server makes of a signal. -/
def Heard.made (name : Text) : Heard π → List π
  | .emitted other fp => if other = name then [fp] else []
  | .arrived _ _ _ => []

/-- The parameters of the emissions of a signal that come to its mirror. -/
def Heard.taken (name : Text) : Heard π → List π
  | .emitted _ _ => []
  | .arrived other fp _ => if other = name then [fp] else []

/-- The parameters that a slot of a mirror is called with. -/
def Heard.got (name : Text) (con : Nat) : Heard π → List π
  | .emitted _ _ => []
  | .arrived other _ calls =>
      if other = name then
        (calls.filterMap Call.slot?).filterMap fun call =>
          if call.1 = con then some call.2 else none
      else []

/-- The parameters of the emissions of a signal that are on their way to the client. -/
def onTheWay (name : Text) : List (ToClient π) → List π :=
  List.filterMap fun
    | .emission other fp => if other = name then some fp else none
    | .response => none

/-- The counts for a signal that are on their way to the server. -/
def countsOnTheWay (name : Text) : List (ToServer π) → List Int :=
  List.filterMap fun
    | .connectSignal sig count => if sig = name then some count else none
    | _ => none

/-- The counts for a signal that the server has got. -/
def countsHandled (name : Text) : List SignalEvent → List Int :=
  List.filterMap fun
    | .connectSignal sig count => if sig = name then some count else none
    | _ => none

/-! ## What a step can do -/

/-- `Signalled s e s'` says what the event `e` does. -/
inductive Signalled (s : Subscription π) : SubscriptionEvent π → Subscription π → Prop where
  | used (name : Text) (e : MirrorEvent π) (m : Mirror π) :
      e.ByProgram = true → (s.mirrors name).step e = .next m →
      Signalled s (.client name e)
        { s.put name m with toServer := s.toServer ++ (s.mirrors name).requests name m }
  | arrived (name : Text) (fp : π) (toClient : List (ToClient π)) :
      s.toClient = .emission name fp :: toClient →
      Signalled s .clientRead
        { s.put name ((s.mirrors name).receive fp) with
          toClient, toServer := s.toServer ++ [.response] }
  | answered (toClient : List (ToClient π)) :
      s.toClient = .response :: toClient → Signalled s .clientRead { s with toClient }
  | connected (sig : Text) (count : Int) (toServer : List (ToServer π)) (server : Server) :
      s.toServer = .connectSignal sig count :: toServer →
      s.server.step (.connectSignal sig count) = .next server →
      Signalled s .serverRead { s with server, toServer, toClient := s.toClient ++ [.response] }
  | received (name : Text) (fp : π) (toServer : List (ToServer π)) (server : Server) :
      s.toServer = .emission name fp :: toServer → s.server.step (.receive name) = .next server →
      Signalled s .serverRead { s with server, toServer, delivered := some fp }
  | refused (name : Text) (fp : π) (toServer : List (ToServer π)) :
      s.toServer = .emission name fp :: toServer →
      Signalled s .serverRead { s with toServer, toClient := s.toClient ++ [.response] }
  | returned (toServer : List (ToServer π)) :
      s.toServer = .response :: toServer → Signalled s .serverRead { s with toServer }
  | reached (fp : π) (server : Server) :
      s.server.step .reach = .next server → Signalled s .reach (s.forward server fp)
  | finished (thrown : Option Exception) (server : Server) :
      s.server.step (.finish thrown) = .next server →
      Signalled s (.finish thrown)
        { s with server, delivered := none, toClient := s.toClient ++ [.response] }
  | escaped (server : Server) :
      s.server.step (.finish (some .foreign)) = .next server →
      Signalled s (.finish (some .foreign))
        { s with server, delivered := none, serverReads := false }
  | emitted (name : Text) (fp : π) (server : Server) :
      s.server.step (.emit name) = .next server →
      Signalled s (.emit name fp) (s.forward server fp)

/-- A step is one of those. -/
theorem signalled_of_step {s s' : Subscription π} {e : SubscriptionEvent π}
    (h : s.step e = .next s') : Signalled s e s' := by
  cases e with
  | client name e =>
      simp only [Subscription.step] at h
      split at h
      · rename_i huses
        split at h
        · rename_i m hm
          cases h
          exact .used name e m huses hm
        · cases h
        · cases h
      · cases h
  | clientRead =>
      simp only [Subscription.step] at h
      split at h
      · rename_i name fp toClient hhead
        cases h
        exact .arrived name fp toClient hhead
      · rename_i toClient hhead
        cases h
        exact .answered toClient hhead
      · cases h
  | serverRead =>
      simp only [Subscription.step] at h
      split at h
      swap
      · cases h
      split at h
      · rename_i sig count toServer hhead
        split at h
        · rename_i server hserver
          cases h
          exact .connected sig count toServer server hhead hserver
        · cases h
        · cases h
      · rename_i name fp toServer hhead
        split at h
        · split at h
          · rename_i server hserver
            cases h
            exact .received name fp toServer server hhead hserver
          · cases h
          · cases h
        · split at h
          · cases h
            exact .refused name fp toServer hhead
          · cases h
      · rename_i toServer hhead
        split at h
        · cases h
          exact .returned toServer hhead
        · cases h
      · cases h
  | reach =>
      simp only [Subscription.step] at h
      split at h
      · rename_i fp server _ hserver
        cases h
        exact .reached fp server hserver
      · cases h
  | finish thrown =>
      simp only [Subscription.step] at h
      split at h
      · rename_i server hserver
        split at h
        · cases h
          exact .escaped server hserver
        · cases h
          exact .finished thrown server hserver
      · cases h
      · cases h
  | emit name fp =>
      simp only [Subscription.step] at h
      split at h
      · rename_i server hserver
        cases h
        exact .emitted name fp server hserver
      · cases h
      · cases h

/-! ## The mirrors -/

/-- A mirror of a client that reports its slots: the last report counts all of them. -/
structure Mirror.Reporting (m : Mirror π) : Prop extends m.Settled where
  reports : m.reports = true
  slots : m.signal.length ≤ m.reported.getLastD 0
  bounded : ∀ n ∈ m.reported, n ≤ m.connections

/-- What a step of a mirror reports. -/
def Mirror.Reports (m m' : Mirror π) (counts : List Nat) : Prop :=
  m'.reported = m.reported ++ counts ∧ ∀ n ∈ counts, n = m'.signal.length

namespace Mirror.Reporting

variable {m m' : Mirror π}

theorem visited : (Mirror.visited : Mirror π).Reporting where
  toSettled := { (Mirror.Settled.new : (Mirror.new : Mirror π).Settled) with }
  reports := rfl
  slots := Nat.zero_le _
  bounded := List.forall_mem_nil _

/-- There are not more slots than connections. -/
theorem signal_le (h : m.Settled) : m.signal.length ≤ m.connections := by
  have hsub : m.signal ⊆ List.range m.connections :=
    fun con hcon => List.mem_range.mpr (h.made con hcon)
  have hle := (List.subperm_of_subset h.distinct hsub).length_le
  rwa [List.length_range] at hle

/-- A mirror reports its slots. -/
theorem report (hsettled : m.Settled) (hreports : m.reports = true)
    (hbounded : ∀ n ∈ m.reported, n ≤ m.connections) :
    m.report.Reporting ∧ m.Reports m.report [m.signal.length] := by
  have hreport : m.report = { m with reported := m.reported ++ [m.signal.length] } :=
    if_pos hreports
  rw [hreport]
  refine ⟨⟨{ hsettled with }, hreports, ?_, ?_⟩, rfl, ?_⟩
  · show m.signal.length ≤ (m.reported ++ [m.signal.length]).getLastD 0
    rw [List.getLastD_concat]
  · intro n hn
    rcases List.mem_append.mp hn with hn | hn
    · exact hbounded n hn
    · rw [List.mem_singleton.mp hn]
      exact signal_le hsettled
  · intro n hn
    exact List.mem_singleton.mp hn

/-- A program uses the mirror. -/
theorem step (h : m.Reporting) {e : MirrorEvent π} (huses : e.ByProgram = true)
    (hstep : m.step e = .next m') : m'.Reporting ∧ ∃ counts, m.Reports m' counts := by
  cases e with
  | connect =>
      cases hstep
      let made : Mirror π :=
        { m with signal := m.signal ++ [m.connections], connections := m.connections + 1 }
      have hmade : made.Settled := by
        have hconnect : made.report.Settled := h.toSettled.connect
        have hreport : made.report = { made with reported := m.reported ++ [made.signal.length] } :=
          if_pos h.reports
        rw [hreport] at hconnect
        exact { hconnect with }
      obtain ⟨hreporting, hreports⟩ := report (m := made) hmade h.reports
        fun n hn => (h.bounded n hn).trans (Nat.le_succ _)
      exact ⟨hreporting, _, hreports⟩
  | disconnect con =>
      rw [Mirror.step] at hstep
      split at hstep
      · cases hstep
      · cases hstep
        obtain ⟨hreporting, hreports⟩ := report (h.toSettled.drop con) h.reports h.bounded
        exact ⟨hreporting, _, hreports⟩
  | drop con =>
      rw [Mirror.step] at hstep
      split at hstep
      · cases hstep
      · cases hstep
        refine ⟨⟨h.toSettled.drop con, h.reports, ?_, h.bounded⟩, [], ?_, List.forall_mem_nil _⟩
        · exact (List.length_filter_le _ _).trans h.slots
        · exact (List.append_nil _).symm
  | invoke fp =>
      have hsettled := h.toSettled.step hstep
      cases hstep
      exact ⟨⟨hsettled, h.reports, h.slots, h.bounded⟩, [], (List.append_nil _).symm,
        List.forall_mem_nil _⟩
  | setConnectDelegate | assign | setDelegate | connectLocal | emitLocal => cases huses

/-- An emission of the server comes to the mirror. -/
theorem receive (h : m.Reporting) (fp : π) : (m.receive fp).Reporting where
  toSettled := { h.toSettled with
    flags := fun con => by
      show (m.emit m.flags fp).2 con = false
      rw [Mirror.emit_flags]
      exact h.flags con }
  reports := h.reports
  slots := h.slots
  bounded := h.bounded

end Mirror.Reporting

/-- The requests of a mirror that reports these counts. -/
theorem counts_requests {m m' : Mirror π} {counts : List Nat} (h : m.Reports m' counts)
    (name other : Text) :
    countsOnTheWay name (m.requests other m') =
      if other = name then counts.map reportedCount else [] := by
  have hemissions : ∀ fps : List π,
      countsOnTheWay name (fps.map (ToServer.emission other)) = [] := by
    intro fps
    refine List.filterMap_eq_nil_iff.mpr fun msg hmsg => ?_
    obtain ⟨fp, -, rfl⟩ := List.mem_map.mp hmsg
    rfl
  rw [Mirror.requests, countsOnTheWay, List.filterMap_append, h.1, List.drop_left]
  show _ ++ countsOnTheWay name _ = _
  rw [hemissions, List.append_nil]
  clear h
  induction counts with
  | nil => exact (ite_self _).symm
  | cons n counts ih =>
      rw [List.map_cons, List.filterMap_cons, ih]
      by_cases hname : other = name
      · simp only [if_pos hname, List.map_cons]
      · simp only [if_neg hname]

/-! ## Who is connected -/

/-- The counts that the server has got and those on their way are the reports of the mirrors. -/
structure Subscribes (past : List SignalEvent) (s : Subscription π) : Prop where
  tracks : Tracks past s.server
  mirrors : ∀ name, (s.mirrors name).Reporting
  counts : ∀ name, countsHandled name past ++ countsOnTheWay name s.toServer =
    (s.mirrors name).reported.map reportedCount

/-- The latest count is the last that the server has got. -/
theorem latest_count_handled (name : Text) (past : List SignalEvent) :
    latestCount name past = (countsHandled name past).getLastD 0 := by
  induction past using List.reverseRecOn with
  | nil => rfl
  | append_singleton past e ih =>
      rw [latest_count_append, countsHandled, List.filterMap_append]
      cases e with
      | connectSignal sig count =>
          by_cases hsig : sig = name
          · simp only [hsig, if_true, List.filterMap_cons, List.filterMap_nil,
              List.getLastD_concat]
          · simp only [hsig, if_false, List.filterMap_cons, List.filterMap_nil, List.append_nil]
            exact ih
      | receive | reach | finish | emit =>
          simp only [List.filterMap_cons, List.filterMap_nil, List.append_nil]
          exact ih

/-- The count that the server goes by, and those that it will go by. -/
def expected (name : Text) (past : List SignalEvent) (s : Subscription π) : List Int :=
  latestCount name past :: countsOnTheWay name s.toServer

/-- A message that is no count is on its way. -/
theorem counts_append_response (name : Text) (msgs : List (ToServer π)) :
    countsOnTheWay name (msgs ++ [.response]) = countsOnTheWay name msgs := by
  rw [countsOnTheWay, List.filterMap_append]
  exact List.append_nil _

/-- An event that is no `rpc_connect_signal`. -/
def SignalEvent.Plain : SignalEvent → Bool
  | .connectSignal _ _ => false
  | _ => true

/-- It leaves the counts alone. -/
theorem counts_handled_plain {e : SignalEvent} (he : e.Plain = true) (name : Text)
    (past : List SignalEvent) :
    countsHandled name (past ++ [e]) = countsHandled name past ∧
      latestCount name (past ++ [e]) = latestCount name past := by
  have hhandled : countsHandled name (past ++ [e]) = countsHandled name past := by
    rw [countsHandled, List.filterMap_append]
    cases e with
    | connectSignal sig count => cases he
    | receive | reach | finish | emit => exact List.append_nil _
  exact ⟨hhandled, by rw [latest_count_handled, latest_count_handled, hhandled]⟩

namespace Subscribes

variable {past : List SignalEvent} {s s' : Subscription π} {e : SubscriptionEvent π}

theorem new (names : List Text) : Subscribes [] (.new names : Subscription π) where
  tracks := tracks_new names
  mirrors _ := .visited
  counts _ := rfl

/-- A step of the server that takes no count. -/
theorem plain (h : Subscribes past s) (s' : Subscription π) {ev : SignalEvent}
    (hplain : ev.Plain = true) (hserver : s.server.step ev = .next s'.server)
    (hmirrors : s'.mirrors = s.mirrors)
    (hcounts : ∀ name, countsOnTheWay name s'.toServer = countsOnTheWay name s.toServer) :
    Subscribes (past ++ [ev]) s' ∧
      ∀ name, expected name (past ++ [ev]) s' = expected name past s := by
  refine ⟨⟨h.tracks.step hserver, ?_, fun name => ?_⟩, fun name => ?_⟩
  · rw [hmirrors]
    exact h.mirrors
  · rw [hcounts, hmirrors, (counts_handled_plain hplain name past).1]
    exact h.counts name
  · rw [expected, hcounts, (counts_handled_plain hplain name past).2, expected]

/-- A step without the server that takes no count and makes none. -/
theorem apart (h : Subscribes past s) (s' : Subscription π) (hserver : s'.server = s.server)
    (hmirrors : ∀ name, (s'.mirrors name).Reporting ∧
      (s'.mirrors name).reported = (s.mirrors name).reported)
    (hcounts : ∀ name, countsOnTheWay name s'.toServer = countsOnTheWay name s.toServer) :
    Subscribes past s' ∧ ∀ name, expected name past s' = expected name past s := by
  refine ⟨⟨?_, fun name => (hmirrors name).1, fun name => ?_⟩, fun name => ?_⟩
  · rw [hserver]
    exact h.tracks
  · rw [hcounts, (hmirrors name).2]
    exact h.counts name
  · rw [expected, hcounts, expected]

/-- What a mirror of the client does. -/
theorem used (h : Subscribes past s) {name : Text} {ev : MirrorEvent π} {m : Mirror π}
    (huses : ev.ByProgram = true) (hstep : (s.mirrors name).step ev = .next m) :
    Subscribes past
        { s.put name m with toServer := s.toServer ++ (s.mirrors name).requests name m } ∧
      ∀ other, ∃ counts, (∀ c ∈ counts, other = name ∧ c = reportedCount m.signal.length) ∧
        expected other past
          { s.put name m with toServer := s.toServer ++ (s.mirrors name).requests name m } =
          expected other past s ++ counts := by
  obtain ⟨hreporting, counts, hreports⟩ := (h.mirrors name).step huses hstep
  have hcounts : ∀ other,
      countsOnTheWay other (s.toServer ++ (s.mirrors name).requests name m) =
        countsOnTheWay other s.toServer ++
          if name = other then counts.map reportedCount else [] := by
    intro other
    rw [countsOnTheWay, List.filterMap_append]
    exact congrArg _ (counts_requests hreports other name)
  refine ⟨⟨h.tracks, fun other => ?_, fun other => ?_⟩, fun other => ?_⟩
  · show (Function.update s.mirrors name m other).Reporting
    by_cases hother : other = name
    · rw [hother, Function.update_self]
      exact hreporting
    · rw [Function.update_of_ne hother]
      exact h.mirrors other
  · show countsHandled other past ++ countsOnTheWay other _ =
      (Function.update s.mirrors name m other).reported.map reportedCount
    rw [hcounts, ← List.append_assoc, h.counts other]
    by_cases hother : other = name
    · rw [hother, Function.update_self, if_pos rfl, hreports.1, List.map_append]
    · rw [Function.update_of_ne hother, if_neg (Ne.symm hother), List.append_nil]
  · refine ⟨_, ?_, congrArg (latestCount other past :: ·) (hcounts other)⟩
    intro c hc
    split at hc
    · rename_i hname
      obtain ⟨n, hn, rfl⟩ := List.mem_map.mp hc
      rw [hreports.2 n hn]
      exact ⟨hname.symm, rfl⟩
    · cases hc

/-- The server takes a count. -/
theorem connected (h : Subscribes past s) {sig : Text} {count : Int} {toServer : List (ToServer π)}
    {server : Server} {toClient : List (ToClient π)}
    (hhead : s.toServer = .connectSignal sig count :: toServer)
    (hserver : s.server.step (.connectSignal sig count) = .next server) :
    Subscribes (past ++ [.connectSignal sig count]) { s with server, toServer, toClient } ∧
      ∀ name, expected name (past ++ [.connectSignal sig count])
        { s with server, toServer, toClient } ⊆ expected name past s := by
  have hcounts : ∀ name, countsOnTheWay name s.toServer =
      (if sig = name then [count] else []) ++ countsOnTheWay name toServer := by
    intro name
    rw [hhead, countsOnTheWay, List.filterMap_cons]
    by_cases hsig : sig = name
    · simp only [if_pos hsig]
      rfl
    · simp only [if_neg hsig]
      rfl
  have hhandled : ∀ name, countsHandled name (past ++ [.connectSignal sig count]) =
      countsHandled name past ++ if sig = name then [count] else [] := by
    intro name
    rw [countsHandled, List.filterMap_append]
    by_cases hsig : sig = name
    · simp only [List.filterMap_cons, List.filterMap_nil, if_pos hsig]
    · simp only [List.filterMap_cons, List.filterMap_nil, if_neg hsig]
  refine ⟨⟨h.tracks.step hserver, h.mirrors, fun name => ?_⟩, fun name => ?_⟩
  · show countsHandled name _ ++ countsOnTheWay name toServer = _
    rw [hhandled, List.append_assoc, ← hcounts]
    exact h.counts name
  · show latestCount name _ :: countsOnTheWay name toServer ⊆ _
    rw [expected, hcounts, latest_count_append]
    by_cases hsig : sig = name
    · simp only [if_pos hsig]
      exact List.subset_cons_self _ _
    · simp only [if_neg hsig]
      exact List.Subset.refl _

/-- What a step does to the counts that the server goes by. -/
theorem step (h : Subscribes past s) (hstep : Signalled s e s') :
    ∃ past', Subscribes past' s' ∧ ∀ name c, c ∈ expected name past' s' →
      c ∈ expected name past s ∨
        ∃ ev, e = .client name ev ∧ c = reportedCount (s'.mirrors name).signal.length := by
  cases hstep with
  | used name ev m huses hm =>
      obtain ⟨hnext, hexpected⟩ := h.used huses hm
      refine ⟨past, hnext, fun other c hc => ?_⟩
      obtain ⟨counts, hcounts, heq⟩ := hexpected other
      rw [heq] at hc
      rcases List.mem_append.mp hc with hc | hc
      · exact .inl hc
      · obtain ⟨rfl, hcount⟩ := hcounts c hc
        refine .inr ⟨ev, rfl, ?_⟩
        show c = reportedCount (Function.update s.mirrors other m other).signal.length
        rwa [Function.update_self]
  | arrived name fp toClient hhead =>
      have hmirrors : ∀ other, (Function.update s.mirrors name
          ((s.mirrors name).receive fp) other).Reporting ∧
          (Function.update s.mirrors name ((s.mirrors name).receive fp) other).reported =
            (s.mirrors other).reported := by
        intro other
        by_cases hother : other = name
        · rw [hother, Function.update_self]
          exact ⟨(h.mirrors name).receive fp, rfl⟩
        · rw [Function.update_of_ne hother]
          exact ⟨h.mirrors other, rfl⟩
      obtain ⟨hnext, hexpected⟩ := h.apart { s.put name ((s.mirrors name).receive fp) with
        toClient, toServer := s.toServer ++ [.response] } rfl hmirrors
        fun other => counts_append_response other s.toServer
      exact ⟨past, hnext, fun other c hc => .inl (hexpected other ▸ hc)⟩
  | answered toClient hhead =>
      exact ⟨past, ⟨h.tracks, h.mirrors, h.counts⟩, fun other c hc => .inl hc⟩
  | connected sig count toServer server hhead hserver =>
      obtain ⟨hnext, hexpected⟩ := h.connected hhead hserver
      exact ⟨_, hnext, fun other c hc => .inl (hexpected other hc)⟩
  | received name fp toServer server hhead hserver =>
      obtain ⟨hnext, hexpected⟩ := h.plain { s with
        server, toServer, delivered := some fp } rfl hserver rfl fun other => by rw [hhead]; rfl
      exact ⟨_, hnext, fun other c hc => .inl (hexpected other ▸ hc)⟩
  | refused name fp toServer hhead =>
      obtain ⟨hnext, hexpected⟩ := h.apart { s with
        toServer, toClient := s.toClient ++ [.response] } rfl (fun other => ⟨h.mirrors other, rfl⟩)
        fun other => by rw [hhead]; rfl
      exact ⟨_, hnext, fun other c hc => .inl (hexpected other ▸ hc)⟩
  | returned toServer hhead =>
      obtain ⟨hnext, hexpected⟩ := h.apart { s with toServer } rfl
        (fun other => ⟨h.mirrors other, rfl⟩) fun other => by rw [hhead]; rfl
      exact ⟨_, hnext, fun other c hc => .inl (hexpected other ▸ hc)⟩
  | reached fp server hserver =>
      obtain ⟨hnext, hexpected⟩ := h.plain (s.forward server fp) rfl hserver rfl fun _ => rfl
      exact ⟨_, hnext, fun other c hc => .inl (hexpected other ▸ hc)⟩
  | finished thrown server hserver =>
      obtain ⟨hnext, hexpected⟩ := h.plain { s with
        server, delivered := none, toClient := s.toClient ++ [.response] } rfl hserver rfl
        fun _ => rfl
      exact ⟨_, hnext, fun other c hc => .inl (hexpected other ▸ hc)⟩
  | escaped server hserver =>
      obtain ⟨hnext, hexpected⟩ := h.plain { s with
        server, delivered := none, serverReads := false } rfl hserver rfl fun _ => rfl
      exact ⟨_, hnext, fun other c hc => .inl (hexpected other ▸ hc)⟩
  | emitted name fp server hserver =>
      obtain ⟨hnext, hexpected⟩ := h.plain (s.forward server fp) rfl hserver rfl fun _ => rfl
      exact ⟨_, hnext, fun other c hc => .inl (hexpected other ▸ hc)⟩

end Subscribes

/-- What a run leaves behind. -/
theorem subscribes_run {names : List Text} {es : List (SubscriptionEvent π)} {s : Subscription π}
    (h : Lts.Run (subscription π names) (fun _ _ => True) es s) :
    ∃ past, Subscribes past s := by
  refine h.invariant (P := fun s => ∃ past, Subscribes past s) ?_ ?_
  · intro s hs
    obtain rfl := hs
    exact ⟨[], .new names⟩
  · intro s e s' hs _ hstep
    obtain ⟨past, hs⟩ := hs
    obtain ⟨past', hs', -⟩ := hs.step (signalled_of_step hstep)
    exact ⟨past', hs'⟩

/-! ## What reaches the client -/

section Emissions

variable {past : List SignalEvent} {server server' : Server} {name : Text}

/-- The emissions of the client are not sent back to it. -/
theorem sent_of_reach (h : Tracks past server) (hstep : server.step .reach = .next server') :
    server'.sent.drop server.sent.length = [] := by
  obtain ⟨d, hd, rfl⟩ := Server.step_reach hstep
  rw [no_echo h hd, List.drop_length]

/-- An emission of the server is sent once, or it is not. -/
theorem sent_of_emit (h : Tracks past server) (hstep : server.step (.emit name) = .next server') :
    server'.sent.drop server.sent.length = [] ∨
      server'.sent.drop server.sent.length = [name] := by
  obtain ⟨f, hf, rfl⟩ := Server.step_emit hstep
  have hname := h.name name f hf
  have hsent := call_slot_sent server f
  cases hblocked : server.flags f.sigCon with
  | true => exact .inl (by rw [hsent.2.mpr hblocked, List.drop_length])
  | false => exact .inr (by rw [hsent.1.mpr hblocked, List.drop_left, hname])

/-- Without a count it is not. -/
theorem sent_of_zero (h : Tracks past server) (hstep : server.step (.emit name) = .next server')
    (hzero : latestCount name past = 0) : server'.sent.drop server.sent.length = [] := by
  have hforwards : Forwards past server (.emit name) server' := by
    refine (forwards_iff_undisturbed h hstep).mpr fun other heq hcount => ?_
    cases heq
    exact absurd hzero hcount
  rw [hforwards.2.mpr hzero, List.drop_length]

/-- With a count it is, unless an emission of the client is being delivered. -/
theorem sent_of_count (h : Tracks past server) (hstep : server.step (.emit name) = .next server')
    (hcount : latestCount name past ≠ 0) (hquiet : ¬ server.Delivers name) :
    server'.sent.drop server.sent.length = [name] := by
  have hforwards : Forwards past server (.emit name) server' := by
    refine (forwards_iff_undisturbed h hstep).mpr fun other heq _ => ?_
    cases heq
    exact hquiet
  rw [hforwards.1.mpr hcount, List.drop_left]

end Emissions

/-- A message behind those that are on their way. -/
theorem on_the_way_append (name : Text) (msgs msgs' : List (ToClient π)) :
    onTheWay name (msgs ++ msgs') = onTheWay name msgs ++ onTheWay name msgs' :=
  List.filterMap_append

/-- The emissions that are forwarded with these parameters. -/
theorem on_the_way_sent {name other : Text} {sent : List Text} (fp : π)
    (h : sent = [] ∨ sent = [other]) :
    onTheWay name (sent.map fun sig => ToClient.emission sig fp) =
      if other = name ∧ sent ≠ [] then [fp] else [] := by
  rcases h with rfl | rfl
  · exact (if_neg fun h => h.2 rfl).symm
  · by_cases hname : other = name
    · rw [if_pos ⟨hname, List.cons_ne_nil _ _⟩]
      simp only [onTheWay, List.map_cons, List.map_nil, List.filterMap_cons, if_pos hname,
        List.filterMap_nil]
    · rw [if_neg fun h => hname h.1]
      simp only [onTheWay, List.map_cons, List.map_nil, List.filterMap_cons, if_neg hname,
        List.filterMap_nil]

/-- The emissions of a signal on their way to the client behind a step: the client takes the first
of them, and the server adds its own. -/
theorem Subscribes.on_the_way {past : List SignalEvent} {s s' : Subscription π}
    {e : SubscriptionEvent π} (h : Subscribes past s) (hstep : Signalled s e s') (name : Text) :
    ∃ sent, (s.see e).toList.flatMap (Heard.taken name) ++ onTheWay name s'.toClient =
        onTheWay name s.toClient ++ sent ∧
      (latestCount name past = 0 → sent = []) ∧
      (latestCount name past ≠ 0 → (∀ fp, e = .emit name fp → ¬ s.server.Delivers name) →
        sent = (s.see e).toList.flatMap (Heard.made name)) := by
  cases hstep with
  | used other ev m huses hm => exact ⟨[], (List.append_nil _).symm, fun _ => rfl, fun _ _ => rfl⟩
  | arrived other fp toClient hhead =>
      refine ⟨[], ?_, fun _ => rfl, fun _ _ => ?_⟩
      · rw [List.append_nil]
        simp only [Subscription.see, hhead, Option.toList_some, List.flatMap_cons,
          List.flatMap_nil, List.append_nil, Heard.taken, onTheWay, List.filterMap_cons]
        by_cases hname : other = name
        · simp only [if_pos hname]
          rfl
        · simp only [if_neg hname]
          rfl
      · simp only [Subscription.see, hhead]
        rfl
  | answered toClient hhead =>
      refine ⟨[], ?_, fun _ => rfl, fun _ _ => ?_⟩
      · simp only [Subscription.see, hhead]
        exact (List.append_nil _).symm
      · simp only [Subscription.see, hhead]
        rfl
  | connected | refused | finished =>
      exact ⟨[], (on_the_way_append name s.toClient [.response]).trans rfl, fun _ => rfl,
        fun _ _ => rfl⟩
  | received | returned | escaped =>
      exact ⟨[], (List.append_nil _).symm, fun _ => rfl, fun _ _ => rfl⟩
  | reached fp server hserver =>
      refine ⟨[], ?_, fun _ => rfl, fun _ _ => rfl⟩
      show onTheWay name (s.toClient ++ _) = _
      rw [sent_of_reach h.tracks hserver, on_the_way_append]
      rfl
  | emitted other fp server hserver =>
      refine ⟨_, on_the_way_append name s.toClient _, fun hzero => ?_, fun hcount hquiet => ?_⟩
      · rw [on_the_way_sent fp (sent_of_emit h.tracks hserver)]
        refine if_neg fun hsent => hsent.2 ?_
        obtain ⟨rfl, -⟩ := hsent
        exact sent_of_zero h.tracks hserver hzero
      · rw [on_the_way_sent fp (sent_of_emit h.tracks hserver)]
        show _ = (if other = name then [fp] else []) ++ []
        rw [List.append_nil]
        by_cases hname : other = name
        · subst hname
          rw [sent_of_count h.tracks hserver hcount (hquiet fp rfl),
            if_pos ⟨rfl, List.cons_ne_nil _ _⟩, if_pos rfl]
        · rw [if_neg fun h => hname h.1, if_neg hname]

/-! ## What reaches a slot -/

/-- A slot stays connected until it is disconnected, and slots come by `connect` alone. -/
theorem Mirror.step_slots {m m' : Mirror π} {e : MirrorEvent π} (huses : e.ByProgram = true)
    (hstep : m.step e = .next m') :
    (∀ con ∈ m.signal, e ≠ .disconnect con → e ≠ .drop con → con ∈ m'.signal) ∧
      (m.signal = [] → e ≠ .connect → m'.signal = []) ∧
      (m'.connections = m.connections ∨ e = .connect ∧ m'.connections = m.connections + 1) := by
  have hreport : ∀ m : Mirror π,
      m.report.signal = m.signal ∧ m.report.connections = m.connections := by
    intro m
    unfold Mirror.report
    split <;> exact ⟨rfl, rfl⟩
  cases e with
  | connect =>
      cases hstep
      rw [Mirror.connect, (hreport _).1, (hreport _).2]
      exact ⟨fun con hcon _ _ => List.mem_append_left _ hcon, fun _ h => absurd rfl h,
        .inr ⟨rfl, rfl⟩⟩
  | disconnect other =>
      rw [Mirror.step] at hstep
      split at hstep
      · cases hstep
      · cases hstep
        rw [Mirror.disconnect, (hreport _).1, (hreport _).2]
        refine ⟨fun con hcon hne _ => ?_, fun hnil _ => ?_, .inl rfl⟩
        · exact List.mem_filter.mpr
            ⟨hcon, decide_eq_true fun heq => hne (congrArg MirrorEvent.disconnect heq.symm)⟩
        · rw [Mirror.drop, hnil]
          rfl
  | drop other =>
      rw [Mirror.step] at hstep
      split at hstep
      · cases hstep
      · cases hstep
        refine ⟨fun con hcon _ hne => ?_, fun hnil _ => ?_, .inl rfl⟩
        · exact List.mem_filter.mpr
            ⟨hcon, decide_eq_true fun heq => hne (congrArg MirrorEvent.drop heq.symm)⟩
        · rw [Mirror.drop, hnil]
          rfl
  | invoke fp =>
      cases hstep
      exact ⟨fun con hcon _ _ => hcon, fun hnil _ => hnil, .inl rfl⟩
  | setConnectDelegate | assign | setDelegate | connectLocal | emitLocal => cases huses

/-- What a step does to a mirror. -/
theorem mirror_signalled {s s' : Subscription π} {e : SubscriptionEvent π}
    (hstep : Signalled s e s') (name : Text) :
    ((s'.mirrors name).signal = (s.mirrors name).signal ∧
        (s'.mirrors name).connections = (s.mirrors name).connections) ∨
      ∃ ev, e = .client name ev ∧ ev.ByProgram = true ∧
        (s.mirrors name).step ev = .next (s'.mirrors name) := by
  cases hstep with
  | used other ev m huses hm =>
      by_cases hname : name = other
      · subst hname
        refine .inr ⟨ev, rfl, huses, ?_⟩
        show _ = Result.next (Function.update s.mirrors name m name)
        rwa [Function.update_self]
      · refine .inl ?_
        show (Function.update s.mirrors other m name).signal = _ ∧
          (Function.update s.mirrors other m name).connections = _
        rw [Function.update_of_ne hname]
        exact ⟨rfl, rfl⟩
  | arrived other fp toClient hhead =>
      refine .inl ?_
      show (Function.update s.mirrors other ((s.mirrors other).receive fp) name).signal = _ ∧
        (Function.update s.mirrors other ((s.mirrors other).receive fp) name).connections = _
      by_cases hname : name = other
      · subst hname
        rw [Function.update_self]
        exact ⟨rfl, rfl⟩
      · rw [Function.update_of_ne hname]
        exact ⟨rfl, rfl⟩
  | answered | connected | received | refused | returned | reached | finished | escaped
  | emitted => exact .inl ⟨rfl, rfl⟩

/-- A slot of a mirror is called once with each emission that comes to the mirror. -/
theorem Mirror.Settled.emit_slot {m : Mirror π} (h : m.Settled) {con : Nat} (hcon : con ∈ m.signal)
    (name : Text) (fp : π) :
    Heard.got name con (.arrived name fp (m.emit m.flags fp).1) = [fp] := by
  have hcalls : (m.emit m.flags fp).1 = m.signal.map fun con => .slot con fp := h.call_slots fp
  rw [Heard.got, if_pos rfl, hcalls, (filter_slots m.signal fp).1]
  have honce := h.distinct
  clear hcalls h
  generalize m.signal = slots at hcon honce
  induction slots with
  | nil => cases hcon
  | cons other slots ih =>
      obtain ⟨hother, honce⟩ := List.nodup_cons.mp honce
      rw [List.map_cons, List.filterMap_cons]
      rcases List.mem_cons.mp hcon with rfl | hcon
      · simp only [if_true]
        refine congrArg (fp :: ·) (List.filterMap_eq_nil_iff.mpr fun call hcall => ?_)
        obtain ⟨con', hcon', rfl⟩ := List.mem_map.mp hcall
        have hne : con' ≠ con := fun heq => hother (heq ▸ hcon')
        exact if_neg hne
      · have hne : other ≠ con := fun heq => hother (heq ▸ hcon)
        simp only [if_neg hne]
        exact ih hcon honce

/-- What a connected slot gets is what comes to its mirror. -/
theorem Subscribes.got_taken {past : List SignalEvent} {s : Subscription π} (h : Subscribes past s)
    {name : Text} {con : Nat} (hcon : con ∈ (s.mirrors name).signal) (e : SubscriptionEvent π) :
    (s.see e).toList.flatMap (Heard.got name con) =
      (s.see e).toList.flatMap (Heard.taken name) := by
  cases e with
  | clientRead =>
      cases hhead : s.toClient with
      | nil => simp only [Subscription.see, hhead]; rfl
      | cons msg msgs =>
          cases msg with
          | response => simp only [Subscription.see, hhead]; rfl
          | emission other fp =>
              simp only [Subscription.see, hhead, Option.toList_some, List.flatMap_cons,
                List.flatMap_nil, List.append_nil]
              by_cases hname : other = name
              · subst hname
                rw [(h.mirrors other).toSettled.emit_slot hcon other fp, Heard.taken, if_pos rfl]
              · rw [Heard.got, Heard.taken, if_neg hname, if_neg hname]
  | client | serverRead | reach | finish | emit => rfl

/-- A count of some slots is not zero. -/
theorem reported_count_ne_zero {n : Nat} (hpos : 0 < n) (hfew : n < 2 ^ 32) :
    reportedCount n ≠ 0 := by
  have hsize : ((Int32.size : Nat) : Int) = 2 ^ 32 := rfl
  rw [reportedCount, Int32.toInt_ofNat', Int.bmod, hsize]
  split <;> omega

/-- The slot is not disconnected, no more than 2^32 connections are made, and the server does not
emit the signal while it delivers an emission of the client. -/
def Keeps (name : Text) (con : Nat) (s : Subscription π) (e : SubscriptionEvent π) : Prop :=
  e ≠ .client name (.disconnect con) ∧ e ≠ .client name (.drop con) ∧
    (e = .client name .connect → (s.mirrors name).connections + 1 < 2 ^ 32) ∧
    ∀ fp, e = .emit name fp → ¬ s.server.Delivers name

/-- The slot is connected, and the server knows of it. -/
structure Connected (name : Text) (con : Nat) (past : List SignalEvent) (s : Subscription π) :
    Prop extends Subscribes past s where
  slot : con ∈ (s.mirrors name).signal
  few : (s.mirrors name).connections < 2 ^ 32
  counted : ∀ c ∈ expected name past s, c ≠ 0

theorem Connected.step {name : Text} {con : Nat} {past : List SignalEvent} {s s' : Subscription π}
    {e : SubscriptionEvent π} (h : Connected name con past s) (hkeeps : Keeps name con s e)
    (hstep : Signalled s e s') : ∃ past', Connected name con past' s' := by
  obtain ⟨hdisconnect, hdrop, hconnect, -⟩ := hkeeps
  have hslot : con ∈ (s'.mirrors name).signal ∧ (s'.mirrors name).connections < 2 ^ 32 := by
    obtain ⟨hsignal, hconnections⟩ | ⟨ev, rfl, huses, hm⟩ := mirror_signalled hstep name
    · rw [hsignal, hconnections]
      exact ⟨h.slot, h.few⟩
    · obtain ⟨hkept, -, hmade⟩ := Mirror.step_slots huses hm
      refine ⟨hkept con h.slot (fun heq => hdisconnect (congrArg _ heq))
        fun heq => hdrop (congrArg _ heq), ?_⟩
      obtain hsame | ⟨rfl, hmore⟩ := hmade
      · rw [hsame]
        exact h.few
      · rw [hmore]
        exact hconnect rfl
  obtain ⟨past', hnext, hexpected⟩ := h.toSubscribes.step hstep
  refine ⟨past', hnext, hslot.1, hslot.2, fun c hc => ?_⟩
  obtain hold | ⟨ev, -, rfl⟩ := hexpected name c hc
  · exact h.counted c hold
  · have hle := Mirror.Reporting.signal_le (hnext.mirrors name).toSettled
    exact reported_count_ne_zero (List.length_pos_of_mem hslot.1) (by omega)

/-- Where no report is on its way, the server goes by the last one. -/
theorem Subscribes.latest_count {past : List SignalEvent} {s : Subscription π}
    (h : Subscribes past s) {name : Text} (harrived : countsOnTheWay name s.toServer = []) :
    latestCount name past = reportedCount ((s.mirrors name).reported.getLastD 0) := by
  have hcounts := h.counts name
  rw [harrived, List.append_nil] at hcounts
  rw [latest_count_handled, hcounts, List.getLastD_eq_getLast?, List.getLast?_map,
    List.getLastD_eq_getLast?]
  cases (s.mirrors name).reported.getLast? <;> rfl

/-- The server knows of every slot whose report has arrived. -/
theorem connected_of_arrived {name : Text} {con : Nat} {past : List SignalEvent}
    {s : Subscription π} (h : Subscribes past s) (hslot : con ∈ (s.mirrors name).signal)
    (hfew : (s.mirrors name).connections < 2 ^ 32)
    (harrived : countsOnTheWay name s.toServer = []) : Connected name con past s := by
  refine ⟨h, hslot, hfew, fun c hc => ?_⟩
  rw [expected, harrived] at hc
  obtain rfl := List.mem_singleton.mp hc
  have hmirror := h.mirrors name
  have hpos := (List.length_pos_of_mem hslot).trans_le hmirror.slots
  rw [h.latest_count harrived]
  refine reported_count_ne_zero hpos ?_
  rw [List.getLastD_eq_getLast?] at hpos ⊢
  cases hlast : (s.mirrors name).reported.getLast? with
  | none =>
      rw [hlast] at hpos
      cases hpos
  | some n => exact (hmirror.bounded n (List.mem_of_getLast? hlast)).trans_lt hfew

section Runs

variable {names : List Text} {es : List (SubscriptionEvent π)} {s s' : Subscription π}
  {name : Text} {con : Nat} {heard : List (Heard π)}

/-- A slot whose report has arrived gets every emission of the server, once and in the order in
which they are made, behind those that were on their way. -/
theorem subscription_stream (hrun : Lts.Run (subscription π names) (fun _ _ => True) es s)
    (hslot : con ∈ (s.mirrors name).signal) (hfew : (s.mirrors name).connections < 2 ^ 32)
    (harrived : countsOnTheWay name s.toServer = [])
    (h : Trace { subscription π names with start := (· = s) } (Keeps name con) Subscription.see
      heard s') :
    heard.flatMap (Heard.got name con) ++ onTheWay name s'.toClient =
      onTheWay name s.toClient ++ heard.flatMap (Heard.made name) := by
  obtain ⟨past, hs⟩ := subscribes_run hrun
  refine (h.fifo (P := fun s => ∃ past, Connected name con past s)
    (fun s => onTheWay name s.toClient) (Heard.made name) (Heard.got name con) _ ?_ ?_).2
  · rintro _ rfl
    exact ⟨⟨past, connected_of_arrived hs hslot hfew harrived⟩, rfl⟩
  · intro s e s' hs hkeeps hstep
    obtain ⟨past, hs⟩ := hs
    have hsignalled := signalled_of_step hstep
    refine ⟨hs.step hkeeps hsignalled, ?_⟩
    obtain ⟨sent, hqueue, -, hsent⟩ := hs.toSubscribes.on_the_way hsignalled name
    rw [hs.toSubscribes.got_taken hs.slot, hqueue,
      hsent (hs.counted _ List.mem_cons_self) hkeeps.2.2.2]

/-- `print_result` is connected to `got_result` of the calculator, and the server knows it. -/
def printing : Subscription Int :=
  let s : Subscription Int := .new [str "got_result"]
  { s.put (str "got_result") Mirror.visited.connect with
    server := { s.server with flags := Flags.block s.server.flags 0 false }
    toClient := [.response] }

theorem printing_run :
    Lts.Run (subscription Int [str "got_result"]) (fun _ _ => True)
      [.client (str "got_result") .connect, .serverRead] printing := by
  have start : Lts.Run (subscription Int [str "got_result"]) (fun _ _ => True) []
      (.new [str "got_result"]) := .start _ rfl
  have connected := Lts.Run.step _ _ _ (.client (str "got_result") .connect) start trivial rfl
  exact .step _ _ _ .serverRead connected trivial rfl

/-- It prints what the server emits. -/
theorem printing_stream :
    ∃ (s' : Subscription Int) (heard : List (Heard Int)),
      heard = [.emitted (str "got_result") (-3),
        .arrived (str "got_result") (-3) [.slot 0 (-3)]] ∧
      heard.flatMap (Heard.got (str "got_result") 0) ++ onTheWay (str "got_result") s'.toClient =
        onTheWay (str "got_result") printing.toClient ++
          heard.flatMap (Heard.made (str "got_result")) := by
  have start : Trace { subscription Int [str "got_result"] with start := (· = printing) }
      (Keeps (str "got_result") 0) Subscription.see [] printing := .start _ rfl
  have hquiet : ¬ printing.server.Delivers (str "got_result") := by
    rintro ⟨d, hd, -⟩
    cases hd
  have emitted := Trace.step _ _ _ (.emit (str "got_result") (-3)) start
    ⟨nofun, nofun, nofun, fun _ _ => hquiet⟩ rfl
  have answered := Trace.step _ _ _ .clientRead emitted ⟨nofun, nofun, nofun, nofun⟩ rfl
  have arrived := Trace.step _ _ _ .clientRead answered ⟨nofun, nofun, nofun, nofun⟩ rfl
  exact ⟨_, _, rfl, subscription_stream printing_run (List.mem_singleton_self 0) (by decide) rfl
    arrived⟩

/-- A server whose client has reported that it has no slots sends no emissions until a slot is
connected: only those that were on their way arrive. -/
theorem unsubscribed_silent (hrun : Lts.Run (subscription π names) (fun _ _ => True) es s)
    (hnone : (s.mirrors name).reported.getLastD 0 = 0)
    (harrived : countsOnTheWay name s.toServer = [])
    (h : Trace { subscription π names with start := (· = s) }
      (fun _ e => e ≠ .client name .connect) Subscription.see heard s') :
    heard.flatMap (Heard.taken name) ++ onTheWay name s'.toClient = onTheWay name s.toClient := by
  obtain ⟨past, hs⟩ := subscribes_run hrun
  have hfifo := h.fifo (P := fun s => ∃ past, Subscribes past s ∧ (s.mirrors name).signal = [] ∧
      ∀ c ∈ expected name past s, c = 0)
    (fun s => onTheWay name s.toClient) (fun _ => []) (Heard.taken name)
    (onTheWay name s.toClient) ?_ ?_
  · have hqueue := hfifo.2
    rwa [List.flatMap_eq_nil_iff.mpr fun _ _ => rfl, List.append_nil] at hqueue
  · intro s hstart
    obtain rfl := hstart
    refine ⟨⟨past, hs, ?_, fun c hc => ?_⟩, rfl⟩
    · have hslots := (hs.mirrors name).slots
      rw [hnone] at hslots
      exact List.length_eq_zero_iff.mp (Nat.le_zero.mp hslots)
    · rw [expected, harrived] at hc
      obtain rfl := List.mem_singleton.mp hc
      rw [hs.latest_count harrived, hnone]
      rfl
  · intro s e s' hs hconnect hstep
    obtain ⟨past, hs, hnil, hzero⟩ := hs
    have hsignalled := signalled_of_step hstep
    have hnil' : (s'.mirrors name).signal = [] := by
      obtain ⟨hsignal, -⟩ | ⟨ev, rfl, huses, hm⟩ := mirror_signalled hsignalled name
      · exact hsignal.trans hnil
      · exact (Mirror.step_slots huses hm).2.1 hnil fun heq => hconnect (congrArg _ heq)
    obtain ⟨past', hnext, hexpected⟩ := hs.step hsignalled
    refine ⟨⟨past', hnext, hnil', fun c hc => ?_⟩, ?_⟩
    · obtain hold | ⟨ev, -, rfl⟩ := hexpected name c hc
      · exact hzero c hold
      · rw [hnil']
        rfl
    · obtain ⟨sent, hqueue, hnothing, -⟩ := hs.on_the_way hsignalled name
      rw [hqueue, hnothing (hzero _ List.mem_cons_self), List.flatMap_eq_nil_iff.mpr fun _ _ => rfl]

/-- Nobody has connected to `got_result`. -/
theorem got_result_silent :
    ∃ (s' : Subscription Int) (heard : List (Heard Int)),
      heard.flatMap (Heard.made (str "got_result")) = [-3] ∧
      heard.flatMap (Heard.taken (str "got_result")) ++
        onTheWay (str "got_result") s'.toClient = [] := by
  have start : Lts.Run (subscription Int [str "got_result"]) (fun _ _ => True) []
      (.new [str "got_result"]) := .start _ rfl
  obtain ⟨s', htrace⟩ : ∃ s', Trace
      { subscription Int [str "got_result"] with start := (· = .new [str "got_result"]) }
      (fun _ e => e ≠ .client (str "got_result") .connect) Subscription.see
      [.emitted (str "got_result") (-3)] s' :=
    ⟨_, .step [] _ _ (SubscriptionEvent.emit (str "got_result") (-3)) (.start _ rfl) nofun rfl⟩
  exact ⟨s', _, rfl, unsubscribed_silent start rfl rfl htrace⟩

end Runs

end BoostRpc.Json
