import BoostRpc.Json.RemoteCall
import BoostRpc.Lts

/-!
# Signals over a connection

`server` connects every signal of its interface to a slot that forwards emissions to the peer, and
makes a method of it that emits it. The slot is blocked until `rpc_connect_signal` says that the
peer has slots of its own, and while an emission of the peer is delivered. `read_loop` handles one
message after the other; slots and other fibers emit at any time.

`forwarding_iff` says in which runs the emissions that reach the peer are those that the server
makes itself while the peer is connected.
-/

namespace BoostRpc.Json

open Lts

/-! ## Connections of signals -/

/-- The blocked flags of the connections of `boost::signals`. The copies of a connection have one
number, and so one flag. -/
abbrev Flags := Nat → Bool

namespace Flags

/-- `boost::signals::connection::block` -/
def block (flags : Flags) (con : Nat) (shouldBlock : Bool) : Flags :=
  Function.update flags con shouldBlock

/-- The constructor of `scoped_block_signal`: the flags, and its member `unblock`. A connection
that has not been made is `none`. -/
def enter (flags : Flags) : Option Nat → Flags × Bool
  | some con => if flags con then (flags, false) else (block flags con true, true)
  | none => (flags, false)

/-- The destructor of `scoped_block_signal`. -/
def leave (flags : Flags) (unblock : Bool) : Option Nat → Flags
  | some con => if unblock then block flags con false else flags
  | none => flags

variable {con other : Nat}

theorem enter_other (flags : Flags) (h : other ≠ con) :
    (enter flags (some con)).1 other = flags other := by
  cases hblocked : flags con <;> simp [enter, block, hblocked, h]

theorem leave_other (flags : Flags) (unblock : Bool) (h : other ≠ con) :
    leave flags unblock (some con) other = flags other := by
  cases unblock <;> simp [leave, block, h]

end Flags

/-- `connection_private::rpc_connect_signal`. It does nothing for an unknown signal. -/
def rpcConnectSignal (signals : Text → Option Nat) (param : Text × Int) (flags : Flags) :
    Except Exception Unit × Flags :=
  match signals param.1 with
  | some con => (.ok (), Flags.block flags con (param.2 == 0))
  | none => (.ok (), flags)

/-! ## The server -/

/-- `rpc_recv_functor` of a signal. -/
structure RecvSignal where
  sigCon : Nat
  name : Text

/-- An emission of the peer that is being delivered. -/
structure Delivery where
  functor : RecvSignal
  /-- The member of its `scoped_block_signal`. -/
  unblock : Bool
  /-- The flag of the connection in front of the delivery, which the code does not keep. -/
  before : Bool

/-- A server with its connection, as far as signals go. -/
structure Server where
  /-- The map of `connection_private`. -/
  signals : Text → Option Nat
  /-- The methods that are signals. -/
  functors : Text → Option RecvSignal
  flags : Flags
  /-- How many connections of signals have been made. -/
  connections : Nat
  /-- What `read_loop` delivers. -/
  delivery : Option Delivery
  /-- The names of the emissions sent to the peer. -/
  sent : List Text

namespace Server

/-- A server without signals. -/
def empty : Server where
  signals _ := none
  functors _ := none
  flags _ := false
  connections := 0
  delivery := none
  sent := []

/-- `server::visitor` on a signal: the constructor of `rpc_recv_functor` connects the slot that
forwards and blocks it. -/
def visit (s : Server) (name : Text) : Server :=
  let con := s.connections
  let flags := Function.update s.flags con false
  { s with
    connections := con + 1
    flags := Flags.block flags con true
    signals := Function.update s.signals name (some con)
    functors := Function.update s.functors name (some ⟨con, name⟩) }

/-- A server whose interface has these signals. -/
def new (names : List Text) : Server := names.foldl visit empty

/-- The signal comes to the slot that forwards: it calls it, unless it is blocked. -/
def callSlot (s : Server) (f : RecvSignal) : Server :=
  if s.flags f.sigCon then s else { s with sent := s.sent ++ [f.name] }

/-- An emission of the peer of this signal is being delivered. -/
def Delivers (s : Server) (name : Text) : Prop :=
  ∃ d, s.delivery = some d ∧ d.functor.name = name

end Server

/-- What happens at a server. -/
inductive SignalEvent where
  /-- `read_loop` takes an `rpc_connect_signal`. -/
  | connectSignal (sig : Text) (count : Int)
  /-- `read_loop` takes an emission of the peer, and `rpc_recv_functor` blocks the reverse. -/
  | receive (name : Text)
  /-- The emission that is being delivered comes to the slot that forwards. -/
  | reach
  /-- The delivery ends. -/
  | finish (thrown : Option Exception)
  /-- An emission of the server itself comes to the slot that forwards. -/
  | emit (name : Text)

/-- One event. -/
def Server.step (s : Server) : SignalEvent → Result Server
  | .connectSignal sig count =>
      match s.delivery with
      | none => .next { s with flags := (rpcConnectSignal s.signals (sig, count) s.flags).2 }
      | some _ => .impossible
  | .receive name =>
      match s.functors name, s.delivery with
      | some f, none =>
          let (flags, unblock) := Flags.enter s.flags (some f.sigCon)
          .next { s with flags, delivery := some ⟨f, unblock, s.flags f.sigCon⟩ }
      | _, _ => .impossible
  | .reach =>
      match s.delivery with
      | some d => .next (s.callSlot d.functor)
      | none => .impossible
  | .finish _ =>
      match s.delivery with
      | some d =>
          .next { s with
            flags := Flags.leave s.flags d.unblock (some d.functor.sigCon)
            delivery := none }
      | none => .impossible
  | .emit name =>
      match s.functors name with
      | some f => .next (s.callSlot f)
      | none => .impossible

namespace Server

variable {s s' : Server} {sig name : Text} {count : Int} {thrown : Option Exception}

/-! What each event does. -/

theorem step_connect_signal (h : s.step (.connectSignal sig count) = .next s') :
    s.delivery = none ∧
      { s with flags := (rpcConnectSignal s.signals (sig, count) s.flags).2 } = s' := by
  simp only [step] at h
  split at h
  · rename_i hidle
    exact ⟨hidle, Result.next.inj h⟩
  · cases h

theorem step_receive (h : s.step (.receive name) = .next s') :
    ∃ f, s.functors name = some f ∧ s.delivery = none ∧
      { s with
        flags := (Flags.enter s.flags (some f.sigCon)).1
        delivery := some ⟨f, (Flags.enter s.flags (some f.sigCon)).2, s.flags f.sigCon⟩ } = s' := by
  simp only [step] at h
  split at h
  · rename_i f hf hidle
    exact ⟨f, hf, hidle, Result.next.inj h⟩
  · cases h

theorem step_reach (h : s.step .reach = .next s') :
    ∃ d, s.delivery = some d ∧ s.callSlot d.functor = s' := by
  simp only [step] at h
  split at h
  · rename_i d hd
    exact ⟨d, hd, Result.next.inj h⟩
  · cases h

theorem step_finish (h : s.step (.finish thrown) = .next s') :
    ∃ d, s.delivery = some d ∧
      { s with
        flags := Flags.leave s.flags d.unblock (some d.functor.sigCon)
        delivery := none } = s' := by
  simp only [step] at h
  split at h
  · rename_i d hd
    exact ⟨d, hd, Result.next.inj h⟩
  · cases h

theorem step_emit (h : s.step (.emit name) = .next s') :
    ∃ f, s.functors name = some f ∧ s.callSlot f = s' := by
  simp only [step] at h
  split at h
  · rename_i f hf
    exact ⟨f, hf, Result.next.inj h⟩
  · cases h

end Server

/-- A server with these signals, whose peer has no slots yet. -/
def server (names : List Text) : System Server SignalEvent where
  start s := s = .new names
  step := Server.step

/-- The count in the latest `rpc_connect_signal` for a signal, and zero where there was none. -/
def latestCount (name : Text) : List SignalEvent → Int :=
  List.foldl (fun latest e =>
    match e with
    | .connectSignal sig count => if sig = name then count else latest
    | _ => latest) 0

/-- The server forwards its own emissions exactly where the latest count is not zero, no emission
of the peer, and a delivery leaves the flag of its connection as it was. -/
def Forwards (past : List SignalEvent) (s : Server) : SignalEvent → Server → Prop
  | .emit name, s' => (s'.sent = s.sent ++ [name] ↔ latestCount name past ≠ 0) ∧
      (s'.sent = s.sent ↔ latestCount name past = 0)
  | .reach, s' => s'.sent = s.sent
  | .finish _, s' => ∀ d, s.delivery = some d → s'.flags d.functor.sigCon = d.before
  | _, _ => True

/-- No emission of the server, of a signal that the peer is connected to, comes to the slot that
forwards while an emission of the peer of the same signal is being delivered. -/
def Undisturbed (past : List SignalEvent) (s : Server) (e : SignalEvent) (_ : Server) : Prop :=
  ∀ name, e = .emit name → latestCount name past ≠ 0 → ¬ s.Delivers name

/-! ## The methods of the server -/

section Methods

variable {π ρ : Type} (params : JsonCodec π) (result : JsonCodec ρ)

/-- `rpc_recv_functor::operator()` of a signal, where no fiber runs but the one that delivers.
`emission` is the call of the signal. -/
def recvSignal (f : RecvSignal) (emission : π → Flags → Except Exception ρ × Flags) :
    Handler Flags := fun v slot flags =>
  let (flags, unblock) := Flags.enter flags (some f.sigCon)
  let handled := recvFunctor params result emission v slot flags
  { handled with world := Flags.leave handled.world unblock (some f.sigCon) }

/-- What the function leaves behind, the functor leaves behind, or it does not come to it. -/
theorem recv_functor_world {σ : Type} (func : π → σ → Except Exception ρ × σ) (v slot : Value)
    (world : σ) :
    (recvFunctor params result func v slot world).world = world ∨
      ∃ p, (recvFunctor params result func v slot world).world = (func p world).2 := by
  unfold recvFunctor
  cases hp : params.unpack v with
  | error e => exact Or.inl rfl
  | ok p =>
      refine Or.inr ⟨p, ?_⟩
      cases hfunc : func p world with
      | mk r world' =>
          cases r with
          | error e => simp only [hfunc]
          | ok r =>
              simp only [hfunc]
              cases result.pack slot r <;> rfl

/-- A delivery leaves the flag as it was, whether it returns or throws. -/
theorem recv_signal_flag {f : RecvSignal} {emission : π → Flags → Except Exception ρ × Flags}
    (hemission : ∀ p flags, (emission p flags).2 f.sigCon = flags f.sigCon) (v slot : Value)
    (flags : Flags) :
    (recvSignal params result f emission v slot flags).world f.sigCon = flags f.sigCon := by
  have hworld : ∀ flags, (recvFunctor params result emission v slot flags).world f.sigCon =
      flags f.sigCon := by
    intro flags
    rcases recv_functor_world params result emission v slot flags with heq | ⟨p, heq⟩
    · rw [heq]
    · rw [heq, hemission]
  cases hblocked : flags f.sigCon <;>
    simp [recvSignal, Flags.enter, Flags.leave, Flags.block, hblocked, hworld]

/-- The method `rpc_connect_signal` does to the flags what the event does. -/
theorem connect_signal_step {params : JsonCodec (Text × Int)} {result : JsonCodec Unit}
    {s : Server} (hidle : s.delivery = none) {v : Value} {sig : Text} {count : Int}
    (hv : params.unpack v = .ok (sig, count)) (slot : Value) :
    s.step (.connectSignal sig count) = .next { s with
      flags := (recvFunctor params result (rpcConnectSignal s.signals) v slot s.flags).world } := by
  have hworld : (recvFunctor params result (rpcConnectSignal s.signals) v slot s.flags).world =
      (rpcConnectSignal s.signals (sig, count) s.flags).2 := by
    unfold recvFunctor rpcConnectSignal
    simp only [hv]
    cases s.signals sig <;> simp only <;> cases result.pack slot () <;> rfl
  simp only [Server.step, hidle, hworld]

end Methods

/-! ## Who is connected -/

/-- Every signal has a connection of its own, which `rpc_connect_signal` finds. -/
structure Server.Wired (s : Server) : Prop where
  name : ∀ name f, s.functors name = some f → f.name = name
  signals : ∀ name, s.signals name = (s.functors name).map RecvSignal.sigCon
  distinct : ∀ name name' f f', s.functors name = some f → s.functors name' = some f' →
    f.sigCon = f'.sigCon → name = name'

/-- The flags behind some events: a connection is blocked where the peer is not connected, and
during a delivery. -/
structure Tracks (past : List SignalEvent) (s : Server) : Prop extends s.Wired where
  delivery : ∀ d, s.delivery = some d → s.functors d.functor.name = some d.functor ∧
    (d.before = true ↔ latestCount d.functor.name past = 0) ∧ d.unblock = !d.before
  flag : ∀ name f, s.functors name = some f →
    (s.flags f.sigCon = true ↔ latestCount name past = 0 ∨ s.Delivers name)

/-- A step leaves the interface of the server alone. -/
theorem Server.Wired.keep {s s' : Server} (h : s.Wired) (hfunctors : s'.functors = s.functors)
    (hsignals : s'.signals = s.signals) : s'.Wired := by
  refine ⟨?_, ?_, ?_⟩
  · rw [hfunctors]
    exact h.name
  · rw [hfunctors, hsignals]
    exact h.signals
  · rw [hfunctors]
    exact h.distinct

/-- The latest count behind one more event. -/
theorem latest_count_append (name : Text) (past : List SignalEvent) (e : SignalEvent) :
    latestCount name (past ++ [e]) =
      match e with
      | .connectSignal sig count => if sig = name then count else latestCount name past
      | _ => latestCount name past := by
  rw [latestCount, List.foldl_append]
  cases e <;> rfl

section Visit

variable {s : Server}

/-- The signals that have been visited are blocked, and their connections have been made. -/
structure Visited (s : Server) : Prop extends s.Wired where
  blocked : ∀ name f, s.functors name = some f → s.flags f.sigCon = true
  made : ∀ name f, s.functors name = some f → f.sigCon < s.connections
  idle : s.delivery = none

theorem visited_visit (h : Visited s) (name : Text) : Visited (s.visit name) := by
  -- the new connection is none of the old ones
  have hold : ∀ other f, other ≠ name → (s.visit name).functors other = some f →
      s.functors other = some f := by
    intro other f hother hf
    simp only [Server.visit, Function.update_of_ne hother] at hf
    exact hf
  have hnew : ∀ f, (s.visit name).functors name = some f → f = ⟨s.connections, name⟩ := by
    intro f hf
    simp only [Server.visit, Function.update_self] at hf
    exact (Option.some.inj hf).symm
  refine ⟨⟨fun other f hf => ?_, fun other => ?_, fun other other' f f' hf hf' heq => ?_⟩,
    fun other f hf => ?_, fun other f hf => ?_, h.idle⟩
  · by_cases hother : other = name
    · subst hother
      rw [hnew f hf]
    · exact h.name other f (hold other f hother hf)
  · by_cases hother : other = name
    · subst hother
      simp only [Server.visit, Function.update_self, Option.map_some]
    · simp only [Server.visit, Function.update_of_ne hother]
      exact h.signals other
  · by_cases hother : other = name
    · by_cases hother' : other' = name
      · exact hother.trans hother'.symm
      · subst hother
        have hmade := h.made other' f' (hold other' f' hother' hf')
        rw [hnew f hf] at heq
        exact absurd heq (by simp only; omega)
    · have hmade := h.made other f (hold other f hother hf)
      by_cases hother' : other' = name
      · subst hother'
        rw [hnew f' hf'] at heq
        exact absurd heq (by simp only; omega)
      · exact h.distinct other other' f f' (hold other f hother hf) (hold other' f' hother' hf') heq
  · by_cases hother : other = name
    · subst hother
      rw [hnew f hf]
      simp only [Server.visit, Flags.block, Function.update_self]
    · have hmade := h.made other f (hold other f hother hf)
      have hne : f.sigCon ≠ s.connections := by omega
      simp only [Server.visit, Flags.block, Function.update_of_ne hne]
      exact h.blocked other f (hold other f hother hf)
  · by_cases hother : other = name
    · subst hother
      rw [hnew f hf]
      simp only [Server.visit]
      omega
    · have hmade := h.made other f (hold other f hother hf)
      simp only [Server.visit]
      omega

theorem visited_new (names : List Text) : Visited (.new names) := by
  have hempty : Visited .empty :=
    ⟨⟨fun _ _ h => absurd h nofun, fun _ => rfl, fun _ _ _ _ h => absurd h nofun⟩,
      fun _ _ h => absurd h nofun, fun _ _ h => absurd h nofun, rfl⟩
  unfold Server.new
  generalize Server.empty = s at hempty
  induction names generalizing s with
  | nil => exact hempty
  | cons name names ih => exact ih _ (visited_visit hempty name)

/-- Nobody is connected to a new server. -/
theorem tracks_new (names : List Text) : Tracks [] (.new names) := by
  have h := visited_new names
  refine ⟨h.toWired, fun d hd => ?_, fun name f hf => ?_⟩
  · rw [h.idle] at hd
    exact absurd hd nofun
  · exact ⟨fun _ => Or.inl rfl, fun _ => h.blocked name f hf⟩

end Visit

/-! ## What an event does to the flags -/

@[simp] theorem call_slot_flags (s : Server) (f : RecvSignal) : (s.callSlot f).flags = s.flags := by
  unfold Server.callSlot
  split <;> rfl

@[simp] theorem call_slot_functors (s : Server) (f : RecvSignal) :
    (s.callSlot f).functors = s.functors := by
  unfold Server.callSlot
  split <;> rfl

@[simp] theorem call_slot_signals (s : Server) (f : RecvSignal) :
    (s.callSlot f).signals = s.signals := by
  unfold Server.callSlot
  split <;> rfl

@[simp] theorem call_slot_delivery (s : Server) (f : RecvSignal) :
    (s.callSlot f).delivery = s.delivery := by
  unfold Server.callSlot
  split <;> rfl

namespace Tracks

variable {past : List SignalEvent} {s s' : Server}

/-- The slot that forwards changes no flag. -/
theorem call_slot (h : Tracks past s) (f : RecvSignal) {e : SignalEvent}
    (he : ∀ name, latestCount name (past ++ [e]) = latestCount name past) :
    Tracks (past ++ [e]) (s.callSlot f) := by
  refine ⟨h.toWired.keep (by simp) (by simp), fun d hd => ?_, fun name g hg => ?_⟩
  · rw [call_slot_delivery] at hd
    rw [call_slot_functors, he]
    exact h.delivery d hd
  · rw [call_slot_functors] at hg
    rw [call_slot_flags, he, h.flag name g hg, Server.Delivers, Server.Delivers, call_slot_delivery]

/-- `rpc_connect_signal` sets the flag of its signal, and no other. -/
theorem connect (h : Tracks past s) (hidle : s.delivery = none) (sig : Text) (count : Int) :
    Tracks (past ++ [.connectSignal sig count])
      { s with flags := (rpcConnectSignal s.signals (sig, count) s.flags).2 } := by
  refine ⟨h.toWired.keep rfl rfl, fun d hd => absurd (hidle.symm.trans hd) nofun,
    fun name f hf => ?_⟩
  have hsignals := h.signals sig
  have hkept : ∀ flag : Bool, flag = s.flags f.sigCon → name ≠ sig →
      (flag = true ↔
        latestCount name (past ++ [.connectSignal sig count]) = 0 ∨ s.Delivers name) := by
    intro flag hflag hname
    simp only [hflag, latest_count_append, if_neg (Ne.symm hname)]
    exact h.flag name f hf
  cases hsig : s.functors sig with
  | none =>
      have hname : name ≠ sig := by
        intro heq
        rw [heq, hsig] at hf
        exact absurd hf nofun
      rw [hsig] at hsignals
      refine hkept _ ?_ hname
      simp only [rpcConnectSignal, hsignals, Option.map_none]
  | some g =>
      rw [hsig] at hsignals
      by_cases hname : name = sig
      · subst hname
        obtain rfl := Option.some.inj (hf.symm.trans hsig)
        have hdelivers : ¬ s.Delivers name := by
          intro hd
          obtain ⟨d, hd, -⟩ := hd
          exact absurd (hidle.symm.trans hd) nofun
        simp only [rpcConnectSignal, hsignals, Option.map_some, Flags.block, Function.update_self,
          latest_count_append, if_true, beq_iff_eq]
        exact ⟨Or.inl, fun hor => hor.resolve_right hdelivers⟩
      · refine hkept _ ?_ hname
        have hne : f.sigCon ≠ g.sigCon := fun heq => hname (h.distinct name sig f g hf hsig heq)
        simp only [rpcConnectSignal, hsignals, Option.map_some, Flags.block,
          Function.update_of_ne hne]

/-- A delivery begins, and blocks its connection where it is not blocked. -/
theorem receive (h : Tracks past s) (hidle : s.delivery = none) {name : Text} {f : RecvSignal}
    (hf : s.functors name = some f) :
    Tracks (past ++ [.receive name])
      { s with
        flags := (Flags.enter s.flags (some f.sigCon)).1
        delivery := some
          ⟨f, (Flags.enter s.flags (some f.sigCon)).2, s.flags f.sigCon⟩ } := by
  have hname := h.name name f hf
  have hdelivers : ∀ other, ¬ s.Delivers other := by
    intro other hd
    obtain ⟨d, hd, -⟩ := hd
    exact absurd (hidle.symm.trans hd) nofun
  have hflag := h.flag name f hf
  rw [or_iff_left (hdelivers name)] at hflag
  refine ⟨h.toWired.keep rfl rfl, fun d hd => ?_, fun other g hg => ?_⟩
  · obtain rfl := Option.some.inj hd
    simp only [latest_count_append, hname]
    refine ⟨hf, hflag, ?_⟩
    cases hblocked : s.flags f.sigCon <;> simp [Flags.enter, hblocked]
  · rw [latest_count_append]
    by_cases hother : other = name
    · subst hother
      obtain rfl := Option.some.inj (hf.symm.trans hg)
      refine ⟨fun _ => Or.inr ⟨_, rfl, hname⟩, fun _ => ?_⟩
      cases hblocked : s.flags f.sigCon <;> simp [Flags.enter, Flags.block, hblocked]
    · have hne : g.sigCon ≠ f.sigCon := fun heq => hother (h.distinct other name g f hg hf heq)
      show (Flags.enter s.flags (some f.sigCon)).1 g.sigCon = true ↔ _
      rw [Flags.enter_other s.flags hne, h.flag other g hg, or_iff_left (hdelivers other)]
      refine ⟨Or.inl, fun hor => hor.resolve_right fun hd => ?_⟩
      obtain ⟨d, hd, hdname⟩ := hd
      obtain rfl := Option.some.inj hd
      exact hother (hdname.symm.trans hname)

/-- The flag at the end of a delivery is the one in front of it. -/
theorem leave_flag (h : Tracks past s) {d : Delivery} (hd : s.delivery = some d) :
    Flags.leave s.flags d.unblock (some d.functor.sigCon) d.functor.sigCon = d.before := by
  obtain ⟨hfunctor, -, hunblock⟩ := h.delivery d hd
  have hblocked := (h.flag _ _ hfunctor).mpr (Or.inr ⟨d, hd, rfl⟩)
  cases hbefore : d.before <;>
    simp [Flags.leave, Flags.block, hunblock, hbefore, hblocked]

/-- A delivery ends. -/
theorem finish (h : Tracks past s) {d : Delivery} (hd : s.delivery = some d)
    (thrown : Option Exception) :
    Tracks (past ++ [.finish thrown])
      { s with
        flags := Flags.leave s.flags d.unblock (some d.functor.sigCon)
        delivery := none } := by
  obtain ⟨hfunctor, hbefore, -⟩ := h.delivery d hd
  refine ⟨h.toWired.keep rfl rfl, fun _ hnone => absurd hnone nofun, fun name f hf => ?_⟩
  rw [latest_count_append]
  by_cases hname : name = d.functor.name
  · subst hname
    obtain rfl := Option.some.inj (hf.symm.trans hfunctor)
    show Flags.leave s.flags d.unblock (some d.functor.sigCon) d.functor.sigCon = true ↔ _
    rw [h.leave_flag hd, hbefore]
    refine ⟨Or.inl, fun hor => hor.resolve_right fun hnone => ?_⟩
    obtain ⟨_, hnone, -⟩ := hnone
    exact absurd hnone nofun
  · have hne : f.sigCon ≠ d.functor.sigCon :=
      fun heq => hname (h.distinct name _ f d.functor hf hfunctor heq)
    show Flags.leave s.flags d.unblock (some d.functor.sigCon) f.sigCon = true ↔ _
    rw [Flags.leave_other s.flags d.unblock hne, h.flag name f hf]
    refine or_congr_right ⟨fun hdelivers => ?_, fun hnone => ?_⟩
    · obtain ⟨d', hd', hname'⟩ := hdelivers
      obtain rfl := Option.some.inj (hd.symm.trans hd')
      exact absurd hname'.symm hname
    · obtain ⟨_, hnone, -⟩ := hnone
      exact absurd hnone nofun

/-- Every event keeps track. -/
theorem step (h : Tracks past s) {e : SignalEvent} (hstep : s.step e = .next s') :
    Tracks (past ++ [e]) s' := by
  cases e with
  | connectSignal sig count =>
      obtain ⟨hidle, rfl⟩ := Server.step_connect_signal hstep
      exact h.connect hidle sig count
  | receive name =>
      obtain ⟨f, hf, hidle, rfl⟩ := Server.step_receive hstep
      exact h.receive hidle hf
  | reach =>
      obtain ⟨d, hd, rfl⟩ := Server.step_reach hstep
      exact h.call_slot d.functor fun name => latest_count_append name past .reach
  | finish thrown =>
      obtain ⟨d, hd, rfl⟩ := Server.step_finish hstep
      exact h.finish hd thrown
  | emit name =>
      obtain ⟨f, hf, rfl⟩ := Server.step_emit hstep
      exact h.call_slot f fun other => latest_count_append other past (.emit name)

end Tracks

/-- The flags of a server behind any run. -/
theorem tracks_run {names : List Text} {past : List SignalEvent} {s : Server}
    (h : Lts.Run (server names) (fun _ _ => True) past s) : Tracks past s := by
  refine h.traced (Q := Tracks) ?_ fun past s e s' htracks _ hstep => htracks.step hstep
  intro s hs
  obtain rfl := hs
  exact tracks_new names

/-! ## What reaches the peer -/

/-- Whether the slot that forwards is called shows in what the peer gets. -/
theorem call_slot_sent (s : Server) (f : RecvSignal) :
    ((s.callSlot f).sent = s.sent ++ [f.name] ↔ s.flags f.sigCon = false) ∧
      ((s.callSlot f).sent = s.sent ↔ s.flags f.sigCon = true) := by
  unfold Server.callSlot
  cases s.flags f.sigCon <;> simp

/-- The peer does not get its own emissions back. -/
theorem no_echo {past : List SignalEvent} {s : Server} (h : Tracks past s) {d : Delivery}
    (hd : s.delivery = some d) : (s.callSlot d.functor).sent = s.sent := by
  obtain ⟨hfunctor, -, -⟩ := h.delivery d hd
  have hblocked := (h.flag _ _ hfunctor).mpr (Or.inr ⟨d, hd, rfl⟩)
  exact (call_slot_sent s d.functor).2.mpr hblocked

/-- A step forwards what it should exactly where it is undisturbed. -/
theorem forwards_iff_undisturbed {past : List SignalEvent} {s s' : Server} {e : SignalEvent}
    (h : Tracks past s) (hstep : s.step e = .next s') :
    Forwards past s e s' ↔ Undisturbed past s e s' := by
  cases e with
  | connectSignal sig count => exact iff_of_true trivial fun _ heq => absurd heq nofun
  | receive name => exact iff_of_true trivial fun _ heq => absurd heq nofun
  | reach =>
      obtain ⟨d, hd, rfl⟩ := Server.step_reach hstep
      exact iff_of_true (no_echo h hd) fun _ heq => absurd heq nofun
  | finish thrown =>
      obtain ⟨d, hd, rfl⟩ := Server.step_finish hstep
      refine iff_of_true (fun d' hd' => ?_) fun _ heq => absurd heq nofun
      obtain rfl := Option.some.inj (hd.symm.trans hd')
      exact h.leave_flag hd
  | emit name =>
      obtain ⟨f, hf, rfl⟩ := Server.step_emit hstep
      obtain ⟨hsent, hkept⟩ := call_slot_sent s f
      have hflag := h.flag name f hf
      rw [h.name name f hf] at hsent
      show (((s.callSlot f).sent = s.sent ++ [name] ↔ latestCount name past ≠ 0) ∧
        ((s.callSlot f).sent = s.sent ↔ latestCount name past = 0)) ↔ _
      rw [hsent, hkept, ← Bool.not_eq_true, hflag]
      constructor
      · intro hforwards other heq hcount hdelivers
        obtain rfl := SignalEvent.emit.inj heq
        exact hforwards.1.mpr hcount (Or.inr hdelivers)
      · intro hquiet
        by_cases hcount : latestCount name past = 0
        · simp [hcount]
        · simp [hcount, hquiet name rfl hcount]

/-- The server forwards what it should throughout exactly the runs in which none of its own
emissions of a signal that the peer is connected to meets the delivery of an emission of the same
signal. -/
theorem forwarding_iff (names : List Text) (es : List SignalEvent) :
    Throughout (server names) es Forwards ↔ Throughout (server names) es Undisturbed :=
  throughout_congr (fun _ _ _ _ hrun hstep => forwards_iff_undisturbed (tracks_run hrun) hstep) es

/-- An emission that a slot makes while one of the peer is delivered does not reach the peer. -/
theorem emission_lost :
    ¬ ∀ (names : List Text) (es : List SignalEvent),
      Throughout (server names) es Forwards := by
  intro h
  have start : Lts.Run (server [str "got_result"]) (fun _ _ => True) [] (.new [str "got_result"]) :=
    .start _ rfl
  have connected := Lts.Run.step _ _ _ (.connectSignal (str "got_result") 1) start trivial rfl
  have received := Lts.Run.step _ _ _ (.receive (str "got_result")) connected trivial rfl
  have hlost := h [str "got_result"]
    [.connectSignal (str "got_result") 1, .receive (str "got_result"), .emit (str "got_result")]
    _ _ [] _ _ rfl received rfl
  exact absurd (hlost.2.mp rfl) (by decide)

end BoostRpc.Json
