import BoostRpc.Json.Signals

/-!
# Mirrored signals

`mirror_member` of a signal: a signal `m_signal` of its own, and a delegate that is called behind
it, a stub of a remote signal or the emission of a local one. `set_delegate` connects the mirror to
the local signal, so that emissions of this come back to `m_signal`; `m_reverse_con` is blocked
while the mirror is invoked. The slots of all signals return.

`mirror_iff` says in which runs an invocation calls every slot and the delegate once.
-/

namespace BoostRpc.Json

open Lts

/-! ## The mirror -/

/-- `m_delegate`, where it is not empty. -/
inductive Delegate where
  /-- A stub, by `operator=`. -/
  | stub
  /-- The emission of a local signal, by `set_delegate`. -/
  | emitOrThrow (sig : Nat)

/-- A call that an emission or an invocation makes. -/
inductive Call (π : Type) where
  /-- A slot that the mirror is connected to. -/
  | slot (con : Nat) (fp : π)
  /-- The slot that `set_delegate` has connected to a local signal. -/
  | reverse (con : Nat) (fp : π)
  /-- Another slot of a local signal. -/
  | own (con : Nat) (fp : π)
  | delegate (fp : π)

namespace Call

variable {π : Type}

/-- The slot and its parameters. -/
def slot? : Call π → Option (Nat × π)
  | .slot con fp => some (con, fp)
  | _ => none

/-- The parameters of the delegate. -/
def delegate? : Call π → Option π
  | .delegate fp => some fp
  | _ => none

end Call

/-- The exceptions of an invocation. -/
inductive NotDelegated where
  /-- `boost::bad_function_call` -/
  | badFunctionCall
  | noConnectedSlots

/-- A mirrored signal and the local signals, which have numbers. The slots of a signal are given by
their connections, in the order in which they are called. -/
structure Mirror (π : Type) where
  /-- `m_signal` -/
  signal : List Nat
  locals : Nat → List Nat
  /-- `m_delegate` -/
  delegate : Option Delegate
  /-- `m_reverse_con` -/
  reverseCon : Option Nat
  /-- The connections that `set_delegate` has made. -/
  reverses : List Nat
  flags : Flags
  /-- How many connections have been made. -/
  connections : Nat
  /-- There is an `m_connect_delegate`. -/
  reports : Bool
  /-- The numbers that `m_connect_delegate` has been called with. -/
  reported : List Nat
  /-- The calls that have been made. -/
  calls : List (Call π)

/-- `int(num_slots()) - 1 > 0` -/
def BeyondReverse (numSlots : Nat) : Prop := (Int32.ofNat numSlots).toInt - 1 > 0

instance (numSlots : Nat) : Decidable (BeyondReverse numSlots) :=
  inferInstanceAs (Decidable ((Int32.ofNat numSlots).toInt - 1 > 0))

namespace Mirror

variable {π : Type}

/-- A mirror without slots and without a delegate. -/
def new : Mirror π where
  signal := []
  locals _ := []
  delegate := none
  reverseCon := none
  reverses := []
  flags _ := false
  connections := 0
  reports := false
  reported := []
  calls := []

/-- `m_connect_delegate(m_signal.num_slots())`, where it is set. -/
def report (m : Mirror π) : Mirror π :=
  if m.reports then { m with reported := m.reported ++ [m.signal.length] } else m

/-- `mirror_member::connect` -/
def connect (m : Mirror π) : Mirror π :=
  report { m with signal := m.signal ++ [m.connections], connections := m.connections + 1 }

/-- `boost::signals::connection::disconnect`, which takes the slot off its signal. -/
def drop (m : Mirror π) (con : Nat) : Mirror π :=
  { m with
    signal := m.signal.filter (· ≠ con)
    locals := fun sig => (m.locals sig).filter (· ≠ con) }

/-- `mirror_member::disconnect` -/
def disconnect (m : Mirror π) (con : Nat) : Mirror π := report (m.drop con)

/-- `mirror_member::operator=` -/
def assign (m : Mirror π) : Mirror π := { m with delegate := some .stub }

/-- Another slot is connected to a local signal. -/
def connectLocal (m : Mirror π) (sig : Nat) : Mirror π :=
  { m with
    locals := Function.update m.locals sig (m.locals sig ++ [m.connections])
    connections := m.connections + 1 }

/-- `mirror_member::set_delegate` -/
def setDelegate (m : Mirror π) (sig : Nat) : Mirror π :=
  { m with
    signal := []
    locals := Function.update m.locals sig (m.locals sig ++ [m.connections])
    connections := m.connections + 1
    reverseCon := some m.connections
    reverses := m.reverses ++ [m.connections]
    delegate := some (.emitOrThrow sig) }

/-- An emission of `m_signal`, which skips the slots that are blocked. -/
def callSlots (m : Mirror π) (flags : Flags) (fp : π) : List (Call π) :=
  (m.signal.filter fun con => !flags con).map fun con => .slot con fp

/-- `mirror_member::emit` -/
def emit (m : Mirror π) (flags : Flags) (fp : π) : List (Call π) × Flags :=
  let (flags, unblock) := Flags.enter flags m.reverseCon
  let calls := m.callSlots flags fp
  (calls, Flags.leave flags unblock m.reverseCon)

/-- An emission of a local signal with these slots. -/
def callLocal (m : Mirror π) (fp : π) : List Nat → Flags → List (Call π) × Flags
  | [], flags => ([], flags)
  | con :: slots, flags =>
      if flags con then m.callLocal fp slots flags
      else if con ∈ m.reverses then
        let (calls, flags) := m.emit flags fp
        let (rest, flags) := m.callLocal fp slots flags
        (.reverse con fp :: (calls ++ rest), flags)
      else
        let (rest, flags) := m.callLocal fp slots flags
        (.own con fp :: rest, flags)

/-- `m_delegate( fp )` -/
def callDelegate (m : Mirror π) (flags : Flags) (fp : π) :
    List (Call π) × Flags × Option NotDelegated :=
  match m.delegate with
  | none => ([], flags, some .badFunctionCall)
  | some .stub => ([.delegate fp], flags, none)
  | some (.emitOrThrow sig) =>
      if BeyondReverse (m.locals sig).length then
        let (calls, flags) := m.callLocal fp (m.locals sig) flags
        (.delegate fp :: calls, flags, none)
      else ([.delegate fp], flags, some .noConnectedSlots)

/-- `mirror_member::operator()` -/
def invoke (m : Mirror π) (fp : π) : Mirror π × Option NotDelegated :=
  let (flags, unblock) := Flags.enter m.flags m.reverseCon
  let emitted := if BeyondReverse m.signal.length then m.callSlots flags fp else []
  let (delegated, flags, thrown) := m.callDelegate flags fp
  ({ m with
    flags := Flags.leave flags unblock m.reverseCon
    calls := m.calls ++ (emitted ++ delegated) }, thrown)

/-- A local signal is emitted. -/
def emitLocal (m : Mirror π) (sig : Nat) (fp : π) : Mirror π :=
  let (calls, flags) := m.callLocal fp (m.locals sig) m.flags
  { m with flags, calls := m.calls ++ calls }

end Mirror

/-- What happens at a mirror and at the local signals. -/
inductive MirrorEvent (π : Type) where
  | connect
  | disconnect (con : Nat)
  /-- `connection::disconnect`, which the mirror does not notice. -/
  | drop (con : Nat)
  | setConnectDelegate
  | assign
  | setDelegate (sig : Nat)
  | connectLocal (sig : Nat)
  | emitLocal (sig : Nat) (fp : π)
  | invoke (fp : π)

/-- One event. Nobody but the mirror has the connections that `set_delegate` makes. -/
def Mirror.step {π : Type} (m : Mirror π) : MirrorEvent π → Result (Mirror π)
  | .connect => .next m.connect
  | .disconnect con => if con ∈ m.reverses then .impossible else .next (m.disconnect con)
  | .drop con => if con ∈ m.reverses then .impossible else .next (m.drop con)
  | .setConnectDelegate => .next { m with reports := true }
  | .assign => .next m.assign
  | .setDelegate sig => .next (m.setDelegate sig)
  | .connectLocal sig => .next (m.connectLocal sig)
  | .emitLocal sig fp => .next (m.emitLocal sig fp)
  | .invoke fp => .next (m.invoke fp).1

/-- A mirror from its construction on. -/
def mirror (π : Type) : System (Mirror π) (MirrorEvent π) where
  start m := m = .new
  step := Mirror.step

section Invocations

variable {π : Type}

/-- The calls of an invocation: each slot that is connected is called once, and so is the delegate,
and none that `set_delegate` has connected is. -/
structure Mirror.Reached (m : Mirror π) (fp : π) (calls : List (Call π)) : Prop where
  distinct : m.signal.Nodup
  slots : (calls.filterMap Call.slot?).Perm (m.signal.map fun con => (con, fp))
  delegate : calls.filterMap Call.delegate? = [fp]
  reverse : ∀ con fp, Call.reverse con fp ∉ calls

/-- An invocation, where there is a delegate, reaches every slot. -/
def Reaches (_ : List (MirrorEvent π)) (m : Mirror π) : MirrorEvent π → Mirror π → Prop
  | .invoke fp, m' => m.delegate ≠ none →
      ∃ calls, m'.calls = m.calls ++ calls ∧ m.Reached fp calls
  | _, _ => True

/-- The delegate emits a local signal that an earlier `set_delegate` has connected the mirror to. -/
def Mirror.Stale (m : Mirror π) : Prop :=
  ∃ sig, m.delegate = some (.emitOrThrow sig) ∧ BeyondReverse (m.locals sig).length ∧
    ∃ con ∈ m.locals sig, con ∈ m.reverses ∧ m.reverseCon ≠ some con

/-- There are no slots, or more than the one that `operator()` takes for the reverse connection. -/
def Mirror.Counted (m : Mirror π) : Prop := m.signal = [] ∨ BeyondReverse m.signal.length

/-- The slots are counted right at an invocation, and no stale connection is left. -/
def Unmissed (_ : List (MirrorEvent π)) (m : Mirror π) (e : MirrorEvent π) (_ : Mirror π) : Prop :=
  ∀ fp, e = .invoke fp → m.delegate ≠ none → m.Counted ∧ ¬ m.Stale

/-! ## The flags -/

/-- A `scoped_block_signal` leaves the flags as they were. -/
theorem leave_enter (flags : Flags) (con : Option Nat) :
    Flags.leave (Flags.enter flags con).1 (Flags.enter flags con).2 con = flags := by
  cases con with
  | none => rfl
  | some con =>
      cases hblocked : flags con with
      | true => simp [Flags.enter, Flags.leave, hblocked]
      | false =>
          simp only [Flags.enter, Flags.leave, Flags.block, hblocked]
          rw [if_neg Bool.false_ne_true, if_pos rfl, Function.update_idem, ← hblocked,
            Function.update_eq_self]

/-- The reverse connection is blocked in a `scoped_block_signal`. -/
theorem enter_blocks (flags : Flags) (con : Nat) : (Flags.enter flags (some con)).1 con = true := by
  cases hblocked : flags con <;> simp [Flags.enter, Flags.block, hblocked]

/-- No other connection is. -/
theorem enter_leaves {flags : Flags} {reverse : Option Nat} {con : Nat} (h : reverse ≠ some con) :
    (Flags.enter flags reverse).1 con = flags con := by
  cases reverse with
  | none => rfl
  | some other => exact Flags.enter_other flags fun heq => h (congrArg some heq.symm)

namespace Mirror

variable (m : Mirror π)

theorem emit_flags (flags : Flags) (fp : π) : (m.emit flags fp).2 = flags :=
  leave_enter flags m.reverseCon

theorem call_local_flags (fp : π) (slots : List Nat) (flags : Flags) :
    (m.callLocal fp slots flags).2 = flags := by
  induction slots with
  | nil => rfl
  | cons con slots ih =>
      rw [callLocal]
      split
      · exact ih
      split
      · simp only [emit_flags]
        exact ih
      · exact ih

theorem call_delegate_flags (flags : Flags) (fp : π) : (m.callDelegate flags fp).2.1 = flags := by
  unfold callDelegate
  split
  · rfl
  · rfl
  · split
    · exact m.call_local_flags fp _ flags
    · rfl

theorem invoke_flags (fp : π) : (m.invoke fp).1.flags = m.flags := by
  show Flags.leave (m.callDelegate (Flags.enter m.flags m.reverseCon).1 fp).2.1
    (Flags.enter m.flags m.reverseCon).2 m.reverseCon = m.flags
  rw [call_delegate_flags, leave_enter]

theorem emit_local_flags (sig : Nat) (fp : π) : (m.emitLocal sig fp).flags = m.flags :=
  m.call_local_flags fp _ m.flags

/-! ## Emissions of local signals -/

variable {m}

/-- Where the reverse connections are blocked, only the own slots of the signal are called. -/
theorem call_local_quiet {fp : π} {slots : List Nat} {flags : Flags}
    (h : ∀ con ∈ slots, con ∈ m.reverses → flags con = true) :
    ∀ call ∈ (m.callLocal fp slots flags).1, ∃ con, call = .own con fp := by
  induction slots with
  | nil => exact List.forall_mem_nil _
  | cons con slots ih =>
      have hrest := ih fun con hcon => h con (List.mem_cons_of_mem _ hcon)
      rw [callLocal]
      split
      · exact hrest
      · rename_i hopen
        rw [if_neg fun hreverse => hopen (h con List.mem_cons_self hreverse)]
        intro call hcall
        rcases List.mem_cons.mp hcall with rfl | hcall
        · exact ⟨con, rfl⟩
        · exact hrest call hcall

/-- A reverse connection that is not blocked is called. -/
theorem call_local_reverse {fp : π} {slots : List Nat} {flags : Flags} {con : Nat}
    (hcon : con ∈ slots) (hreverse : con ∈ m.reverses) (hopen : flags con = false) :
    .reverse con fp ∈ (m.callLocal fp slots flags).1 := by
  induction slots with
  | nil => exact absurd hcon List.not_mem_nil
  | cons other slots ih =>
      rw [callLocal]
      rcases List.mem_cons.mp hcon with rfl | hcon
      · rw [if_neg (by rw [hopen]; exact Bool.false_ne_true), if_pos hreverse]
        exact List.mem_cons_self
      · have hrest := ih hcon
        split
        · exact hrest
        split
        · simp only [emit_flags]
          exact List.mem_cons_of_mem _ (List.mem_append_right _ hrest)
        · exact List.mem_cons_of_mem _ hrest

end Mirror

/-! ## Between the events -/

/-- Between the events no connection is blocked, and the slots are connections of their own. -/
structure Mirror.Settled (m : Mirror π) : Prop where
  flags : ∀ con, m.flags con = false
  distinct : m.signal.Nodup
  made : ∀ con ∈ m.signal, con < m.connections
  apart : ∀ con ∈ m.signal, con ∉ m.reverses
  reverse : ∀ con, m.reverseCon = some con → con ∈ m.reverses
  reverses : ∀ con ∈ m.reverses, con < m.connections

namespace Mirror.Settled

variable {m : Mirror π}

theorem new : (Mirror.new : Mirror π).Settled where
  flags _ := rfl
  distinct := List.nodup_nil
  made := List.forall_mem_nil _
  apart := List.forall_mem_nil _
  reverse _ h := by cases h
  reverses := List.forall_mem_nil _

theorem report (h : m.Settled) : m.report.Settled := by
  unfold Mirror.report
  split
  · exact { h with }
  · exact h

theorem connect (h : m.Settled) : m.connect.Settled := by
  have hfresh : m.connections ∉ m.signal := fun hmem => Nat.lt_irrefl _ (h.made _ hmem)
  refine report { h with distinct := ?_, made := ?_, apart := ?_, reverses := ?_ }
  · exact List.nodup_append.mpr ⟨h.distinct, List.pairwise_singleton _ _,
      fun con hcon other hother heq =>
      hfresh (List.mem_singleton.mp hother ▸ heq ▸ hcon)⟩
  · intro con hcon
    rcases List.mem_append.mp hcon with hcon | hcon
    · exact Nat.lt_succ_of_lt (h.made con hcon)
    · rw [List.mem_singleton.mp hcon]
      exact Nat.lt_succ_self _
  · intro con hcon
    rcases List.mem_append.mp hcon with hcon | hcon
    · exact h.apart con hcon
    · rw [List.mem_singleton.mp hcon]
      exact fun hreverse => Nat.lt_irrefl _ (h.reverses _ hreverse)
  · exact fun con hcon => Nat.lt_succ_of_lt (h.reverses con hcon)

theorem drop (h : m.Settled) (con : Nat) : (m.drop con).Settled :=
  { h with
    distinct := h.distinct.filter _
    made := fun other hother => h.made other (List.mem_of_mem_filter hother)
    apart := fun other hother => h.apart other (List.mem_of_mem_filter hother) }

theorem connect_local (h : m.Settled) (sig : Nat) : (m.connectLocal sig).Settled :=
  { h with
    made := fun con hcon => Nat.lt_succ_of_lt (h.made con hcon)
    reverses := fun con hcon => Nat.lt_succ_of_lt (h.reverses con hcon) }

theorem set_delegate (h : m.Settled) (sig : Nat) : (m.setDelegate sig).Settled where
  flags := h.flags
  distinct := List.nodup_nil
  made := List.forall_mem_nil _
  apart := List.forall_mem_nil _
  reverse := by
    rintro con heq
    cases heq
    exact List.mem_append_right _ (List.mem_singleton_self _)
  reverses := by
    intro con hcon
    rcases List.mem_append.mp hcon with hcon | hcon
    · exact Nat.lt_succ_of_lt (h.reverses con hcon)
    · rw [List.mem_singleton.mp hcon]
      exact Nat.lt_succ_self _

theorem step (h : m.Settled) {e : MirrorEvent π} {m' : Mirror π} (hstep : m.step e = .next m') :
    m'.Settled := by
  cases e with
  | connect =>
      cases hstep
      exact h.connect
  | disconnect con =>
      rw [Mirror.step] at hstep
      split at hstep
      · cases hstep
      · cases hstep
        exact (h.drop con).report
  | drop con =>
      rw [Mirror.step] at hstep
      split at hstep
      · cases hstep
      · cases hstep
        exact h.drop con
  | setConnectDelegate =>
      cases hstep
      exact { h with }
  | assign =>
      cases hstep
      exact { h with }
  | setDelegate sig =>
      cases hstep
      exact h.set_delegate sig
  | connectLocal sig =>
      cases hstep
      exact h.connect_local sig
  | emitLocal sig fp =>
      cases hstep
      exact { h with flags := fun con => by rw [Mirror.emit_local_flags]; exact h.flags con }
  | invoke fp =>
      cases hstep
      exact { h with flags := fun con => by rw [Mirror.invoke_flags]; exact h.flags con }

end Mirror.Settled

theorem settled_run {past : List (MirrorEvent π)} {m : Mirror π}
    (h : Lts.Run (mirror π) (fun _ _ => True) past m) : m.Settled := by
  refine h.invariant ?_ fun m e m' hsettled _ hstep => hsettled.step hstep
  intro m hm
  obtain rfl := hm
  exact .new

/-! ## Invocations -/

/-- The delegate is called, and where no stale connection is left, nothing but it and the own slots
of a local signal. -/
theorem Mirror.call_delegate {m : Mirror π} (hdelegate : m.delegate ≠ none) (hfresh : ¬ m.Stale)
    (fp : π) :
    ∃ calls, (m.callDelegate (Flags.enter m.flags m.reverseCon).1 fp).1 = .delegate fp :: calls ∧
      ∀ call ∈ calls, ∃ con, call = .own con fp := by
  cases hto : m.delegate with
  | none => exact absurd hto hdelegate
  | some delegate =>
      cases delegate with
      | stub =>
          refine ⟨[], ?_, List.forall_mem_nil _⟩
          rw [Mirror.callDelegate, hto]
      | emitOrThrow sig =>
          by_cases hothers : BeyondReverse (m.locals sig).length
          · have hblocked : ∀ con ∈ m.locals sig, con ∈ m.reverses →
                (Flags.enter m.flags m.reverseCon).1 con = true := by
              intro con hcon hreverse
              by_cases hlast : m.reverseCon = some con
              · rw [hlast]
                exact enter_blocks m.flags con
              · exact absurd ⟨sig, hto, hothers, con, hcon, hreverse, hlast⟩ hfresh
            refine ⟨_, ?_, Mirror.call_local_quiet hblocked⟩
            rw [Mirror.callDelegate, hto]
            simp only [if_pos hothers]
          · refine ⟨[], ?_, List.forall_mem_nil _⟩
            rw [Mirror.callDelegate, hto]
            simp only [if_neg hothers]

namespace Mirror.Settled

variable {m : Mirror π} (h : m.Settled)

include h

/-- No slot of the mirror is blocked while it is invoked. -/
theorem call_slots (fp : π) :
    m.callSlots (Flags.enter m.flags m.reverseCon).1 fp = m.signal.map fun con => .slot con fp := by
  have hopen : ∀ con ∈ m.signal, (!(Flags.enter m.flags m.reverseCon).1 con) = true := by
    intro con hcon
    rw [enter_leaves fun heq => h.apart con hcon (h.reverse con heq), h.flags con]
    rfl
  rw [Mirror.callSlots, List.filter_eq_self.mpr hopen]

/-- A stale connection is called. -/
theorem call_stale (hstale : m.Stale) (fp : π) :
    ∃ con, .reverse con fp ∈ (m.callDelegate (Flags.enter m.flags m.reverseCon).1 fp).1 := by
  obtain ⟨sig, hto, hothers, con, hcon, hreverse, hlast⟩ := hstale
  refine ⟨con, ?_⟩
  rw [Mirror.callDelegate, hto]
  simp only [if_pos hothers]
  exact List.mem_cons_of_mem _ (Mirror.call_local_reverse hcon hreverse
    ((enter_leaves hlast).trans (h.flags con)))

end Mirror.Settled

theorem invoke_calls (m : Mirror π) (fp : π) :
    (m.invoke fp).1.calls = m.calls ++
      ((if BeyondReverse m.signal.length then
          m.callSlots (Flags.enter m.flags m.reverseCon).1 fp else []) ++
        (m.callDelegate (Flags.enter m.flags m.reverseCon).1 fp).1) := rfl

/-- The calls of slots and delegates among those of slots. -/
theorem filter_slots (slots : List Nat) (fp : π) :
    (slots.map fun con => Call.slot con fp).filterMap Call.slot? =
        slots.map (fun con => (con, fp)) ∧
      (slots.map fun con => Call.slot con fp).filterMap Call.delegate? = [] := by
  induction slots with
  | nil => exact ⟨rfl, rfl⟩
  | cons con slots ih => exact ⟨congrArg (_ :: ·) ih.1, ih.2⟩

/-- There are none among those of the own slots of a local signal. -/
theorem filter_own {calls : List (Call π)} {fp : π}
    (h : ∀ call ∈ calls, ∃ con, call = .own con fp) :
    calls.filterMap Call.slot? = [] ∧ calls.filterMap Call.delegate? = [] ∧
      ∀ con fp, Call.reverse con fp ∉ calls := by
  refine ⟨List.filterMap_eq_nil_iff.mpr ?_, List.filterMap_eq_nil_iff.mpr ?_, ?_⟩
  · intro call hcall
    obtain ⟨con, rfl⟩ := h call hcall
    rfl
  · intro call hcall
    obtain ⟨con, rfl⟩ := h call hcall
    rfl
  · intro con fp' hcall
    obtain ⟨other, heq⟩ := h _ hcall
    cases heq

namespace Mirror.Settled

variable {m : Mirror π} (h : m.Settled)

include h

/-- The invocation calls the slots that it counts, and the delegate. -/
theorem reached (hcounted : m.Counted) (hdelegate : m.delegate ≠ none) (hfresh : ¬ m.Stale)
    (fp : π) : ∃ calls, (m.invoke fp).1.calls = m.calls ++ calls ∧ m.Reached fp calls := by
  obtain ⟨calls, hcalls, hown⟩ := Mirror.call_delegate hdelegate hfresh fp
  obtain ⟨hslots, hdelegates, hreverse⟩ := filter_own hown
  have hemitted : (if BeyondReverse m.signal.length then
      m.callSlots (Flags.enter m.flags m.reverseCon).1 fp else []) =
        m.signal.map fun con => .slot con fp := by
    rw [h.call_slots fp]
    rcases hcounted with hnil | hothers
    · rw [hnil]
      exact ite_self _
    · exact if_pos hothers
  have hfilter := filter_slots m.signal fp
  refine ⟨_, invoke_calls m fp, ?_⟩
  rw [hemitted, hcalls]
  refine ⟨h.distinct, ?_, ?_, fun con fp' hmem => ?_⟩
  · rw [List.filterMap_append, hfilter.1]
    show (_ ++ calls.filterMap Call.slot?).Perm _
    rw [hslots, List.append_nil]
  · rw [List.filterMap_append, hfilter.2]
    show fp :: calls.filterMap Call.delegate? = [fp]
    rw [hdelegates]
  · rcases List.mem_append.mp hmem with hmem | hmem
    · obtain ⟨_, _, heq⟩ := List.mem_map.mp hmem
      cases heq
    · rcases List.mem_cons.mp hmem with heq | hmem
      · cases heq
      · exact hreverse con fp' hmem

/-- Only an invocation that counts right reaches every slot. -/
theorem counted {fp : π} {calls : List (Call π)} (hdelegate : m.delegate ≠ none)
    (hcalls : (m.invoke fp).1.calls = m.calls ++ calls) (hreached : m.Reached fp calls) :
    m.Counted ∧ ¬ m.Stale := by
  obtain rfl := List.append_cancel_left (hcalls.symm.trans (invoke_calls m fp))
  have hfresh : ¬ m.Stale := by
    intro hstale
    obtain ⟨con, hcon⟩ := h.call_stale hstale fp
    exact hreached.reverse con fp (List.mem_append_right _ hcon)
  refine ⟨?_, hfresh⟩
  by_contra hcounted
  obtain ⟨hslots, hnone⟩ := not_or.mp hcounted
  obtain ⟨own, hown, hquiet⟩ := Mirror.call_delegate hdelegate hfresh fp
  have hcalled := hreached.slots
  -- without an emission no slot is called
  rw [if_neg hnone, List.nil_append, hown] at hcalled
  have hperm : (own.filterMap Call.slot?).Perm (m.signal.map fun con => (con, fp)) := hcalled
  rw [(filter_own hquiet).1] at hperm
  exact hslots (List.map_eq_nil_iff.mp (List.nil_perm.mp hperm))

end Mirror.Settled

/-- A step reaches what it should where nothing is missed. -/
theorem reaches_iff_unmissed {past : List (MirrorEvent π)} {m m' : Mirror π} {e : MirrorEvent π}
    (h : m.Settled) (hstep : m.step e = .next m') :
    Reaches past m e m' ↔ Unmissed past m e m' := by
  cases e with
  | invoke fp =>
      cases hstep
      constructor
      · rintro hreaches fp' heq hdelegate
        cases heq
        obtain ⟨calls, hcalls, hreached⟩ := hreaches hdelegate
        exact h.counted hdelegate hcalls hreached
      · intro hunmissed hdelegate
        obtain ⟨hcounted, hfresh⟩ := hunmissed fp rfl hdelegate
        exact h.reached hcounted hdelegate hfresh fp
  | connect => exact iff_of_true trivial fun _ heq => by cases heq
  | disconnect con => exact iff_of_true trivial fun _ heq => by cases heq
  | drop con => exact iff_of_true trivial fun _ heq => by cases heq
  | setConnectDelegate => exact iff_of_true trivial fun _ heq => by cases heq
  | assign => exact iff_of_true trivial fun _ heq => by cases heq
  | setDelegate sig => exact iff_of_true trivial fun _ heq => by cases heq
  | connectLocal sig => exact iff_of_true trivial fun _ heq => by cases heq
  | emitLocal sig fp => exact iff_of_true trivial fun _ heq => by cases heq

/-! ## Histories -/

/-- An event that sets a local signal as the delegate. -/
def MirrorEvent.SetsDelegate : MirrorEvent π → Bool
  | .setDelegate _ => true
  | _ => false

theorem report_reverses (m : Mirror π) :
    m.report.reverses = m.reverses ∧ m.report.reverseCon = m.reverseCon := by
  unfold Mirror.report
  split <;> exact ⟨rfl, rfl⟩

/-- Any other event leaves the connections of the mirror alone. -/
theorem step_reverses {m m' : Mirror π} {e : MirrorEvent π} (hstep : m.step e = .next m')
    (h : e.SetsDelegate = false) : m'.reverses = m.reverses ∧ m'.reverseCon = m.reverseCon := by
  cases e with
  | connect =>
      cases hstep
      exact report_reverses _
  | disconnect con =>
      rw [Mirror.step] at hstep
      split at hstep
      · cases hstep
      · cases hstep
        exact report_reverses _
  | drop con =>
      rw [Mirror.step] at hstep
      split at hstep
      · cases hstep
      · cases hstep
        exact ⟨rfl, rfl⟩
  | setDelegate sig => cases h
  | setConnectDelegate =>
      cases hstep
      exact ⟨rfl, rfl⟩
  | assign =>
      cases hstep
      exact ⟨rfl, rfl⟩
  | connectLocal sig =>
      cases hstep
      exact ⟨rfl, rfl⟩
  | emitLocal sig fp =>
      cases hstep
      exact ⟨rfl, rfl⟩
  | invoke fp =>
      cases hstep
      exact ⟨rfl, rfl⟩

/-- The mirror makes one connection for each `set_delegate`, and keeps the last one. -/
theorem reverses_run {past : List (MirrorEvent π)} {m : Mirror π}
    (h : Lts.Run (mirror π) (fun _ _ => True) past m) :
    m.reverses.length = past.countP MirrorEvent.SetsDelegate ∧
      m.reverseCon = m.reverses.getLast? := by
  refine h.traced (Q := fun past m => m.reverses.length = past.countP MirrorEvent.SetsDelegate ∧
    m.reverseCon = m.reverses.getLast?) ?_ fun past m e m' hm _ hstep => ?_
  · intro m hm
    obtain rfl := hm
    exact ⟨rfl, rfl⟩
  · rw [List.countP_append, ← hm.1]
    cases hsets : e.SetsDelegate with
    | false =>
        obtain ⟨hreverses, hlast⟩ := step_reverses hstep hsets
        rw [List.countP_singleton, hsets, hreverses, hlast]
        exact ⟨rfl, hm.2⟩
    | true =>
        cases e with
        | setDelegate sig =>
            cases hstep
            exact ⟨List.length_append, List.getLast?_concat.symm⟩
        | _ => cases hsets

/-- After a single `set_delegate` no connection is stale. -/
theorem fresh_run {past : List (MirrorEvent π)} {m : Mirror π}
    (h : Lts.Run (mirror π) (fun _ _ => True) past m)
    (honce : past.countP MirrorEvent.SetsDelegate ≤ 1) : ¬ m.Stale := by
  obtain ⟨hlength, hlast⟩ := reverses_run h
  intro h'
  obtain ⟨sig, -, -, con, -, hreverse, hne⟩ := h'
  refine hne ?_
  rw [hlast]
  cases hreverses : m.reverses with
  | nil =>
      rw [hreverses] at hreverse
      exact absurd hreverse List.not_mem_nil
  | cons first rest =>
      rw [hreverses, List.length_cons] at hlength
      obtain rfl := List.eq_nil_of_length_eq_zero (show rest.length = 0 by omega)
      rw [hreverses] at hreverse
      rw [List.mem_singleton.mp hreverse]
      rfl

/-- Invocations reach every slot throughout exactly the runs in which they count the slots right and
find no stale connection. -/
theorem mirror_iff (es : List (MirrorEvent π)) :
    Throughout (mirror π) es Reaches ↔ Throughout (mirror π) es Unmissed :=
  throughout_congr (fun _ _ _ _ hrun hstep => reaches_iff_unmissed (settled_run hrun) hstep) es

end Invocations

/-- The one slot of a mirror is not called. -/
theorem one_slot_missed :
    ¬ ∀ (π : Type) (es : List (MirrorEvent π)), Throughout (mirror π) es Reaches := by
  intro h
  have start : Lts.Run (mirror Unit) (fun _ _ => True) [] .new := .start _ rfl
  have assigned := Lts.Run.step _ _ _ .assign start trivial rfl
  have connected := Lts.Run.step _ _ _ .connect assigned trivial rfl
  obtain ⟨calls, hcalls, hreached⟩ := h Unit [.assign, .connect, .invoke ()] _ _ [] _ _ rfl
    connected rfl (by intro h; cases h)
  have hslots := hreached.slots.length_eq
  obtain rfl : [Call.delegate ()] = calls := hcalls
  cases hslots

end BoostRpc.Json
