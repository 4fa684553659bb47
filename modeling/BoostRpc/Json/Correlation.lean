import BoostRpc.Json.Connection
import BoostRpc.Lts

/-!
# Requests and responses of one connection

Any number of fibers call `invoke` on one connection. A fiber can be suspended in `send` and in
`promise::wait`; between two such points, and during a call of `on_receive`, it runs alone. The
events are what happens between the points, in any order.

`no_stale_entry` says under which conditions on the events every entry of `pending_req` belongs to
a call that is still waiting, and `correlation` which response a call gets.
-/

namespace BoostRpc.Json

open Lts

/-- Where a call of `invoke` is. -/
inductive Phase where
  /-- In `send`. -/
  | sending
  /-- In `promise::wait`. -/
  | waiting
  | returned (v : Value)
  | threw (e : Exception)

/-- The call has not left its stack frame. -/
def Phase.inFlight : Phase → Bool
  | .sending => true
  | .waiting => true
  | _ => false

/-- A call of `invoke`. -/
structure Invocation where
  id : Int
  /-- The message, with its id where the call has put one in. -/
  request : Value
  /-- The value set on its promise, and the number of the message that it came with. -/
  promise : Option (Nat × Value)
  phase : Phase

/-- The entry of the call must be in `pending_req`: it is in flight and has no response. -/
def Invocation.isOpen (inv : Invocation) : Prop := inv.phase.inFlight = true ∧ inv.promise = none

/-- A connection with the calls made on it, in their order. The promise of a call is named by its
place among them. -/
structure Calls (σ : Type) where
  connection : Connection σ Nat
  invocations : List Invocation
  /-- How many messages have arrived. -/
  arrivals : Nat

/-- What happens on a connection. -/
inductive Event where
  /-- A fiber calls `invoke` with this message and comes to `send`. -/
  | invoke (msg : Value)
  /-- The `send` of a call returns. -/
  | sent (k : Nat)
  /-- The `send` of a call throws, as a failed write to a socket does. -/
  | sendThrows (k : Nat) (e : Exception)
  /-- `on_receive` is called. -/
  | receive (v : Value)
  /-- The wait of a call returns the value of its promise. -/
  | wake (k : Nat)
  /-- The wait of a call throws: at its timeout, or for any other reason. -/
  | waitThrows (k : Nat) (e : Exception)

variable {σ : Type}

/-- The promise of the call `k` is still there: it is a local variable of the call. -/
def Calls.alive (s : Calls σ) (k : Nat) : Bool :=
  match s.invocations[k]? with
  | some inv => inv.phase.inFlight
  | none => false

/-- The calls with another state of the call `k`. -/
def Calls.put (s : Calls σ) (k : Nat) (inv : Invocation) : Calls σ :=
  { s with invocations := s.invocations.set k inv }

/-- One event. -/
def Calls.step [Platform] (s : Calls σ) : Event → Result (Calls σ)
  | .invoke msg =>
      match s.connection.beginInvoke msg s.invocations.length with
      | (c, .error e) =>
          .next { s with
            connection := c
            invocations := s.invocations ++ [⟨c.nextId, msg, none, .threw e⟩] }
      | (c, .ok (id, msg)) =>
          .next { s with
            connection := c
            invocations := s.invocations ++ [⟨id, msg, none, .sending⟩] }
  | .sent k =>
      match s.invocations[k]? with
      | some ⟨id, request, promise, .sending⟩ => .next (s.put k ⟨id, request, promise, .waiting⟩)
      | _ => .impossible
  | .sendThrows k e =>
      -- `send` is called outside of the `try` block
      match s.invocations[k]? with
      | some ⟨id, request, promise, .sending⟩ => .next (s.put k ⟨id, request, promise, .threw e⟩)
      | _ => .impossible
  | .receive v =>
      match s.connection.onReceive s.alive v with
      | (c, .returned ⟨_, some (k, v)⟩) =>
          match s.invocations[k]? with
          | some inv => .next { s.put k { inv with promise := some (s.arrivals, v) } with
              connection := c
              arrivals := s.arrivals + 1 }
          | none => .undefined
      | (_, .undefined) => .undefined
      | (c, _) => .next { s with connection := c, arrivals := s.arrivals + 1 }
  | .wake k =>
      match s.invocations[k]? with
      | some ⟨id, request, some (n, v), .waiting⟩ =>
          .next (s.put k ⟨id, request, some (n, v), .returned v⟩)
      | _ => .impossible
  | .waitThrows k e =>
      match s.invocations[k]? with
      | some ⟨id, request, promise, .waiting⟩ =>
          let s' := s.put k ⟨id, request, promise, .threw e⟩
          if e.isBoost then
            -- an iterator is erased, which must not be the end of the map
            match s.connection.pendingReq id with
            | some _ => .next { s' with connection := s.connection.erase id }
            | none => .undefined
          else .next s'
      | _ => .impossible

/-- The calls on a connection that no call has been made on. -/
def calls [Platform] : System (Calls σ) Event where
  start s := ∃ methods world, s = ⟨.fresh methods world, [], 0⟩
  step := Calls.step

/-! ## Entries and calls -/

/-- The entries of `pending_req` are those of the open calls. -/
structure Tidy (pending : Int → Option Nat) (invocations : List Invocation) : Prop where
  entry : ∀ id k, pending id = some k →
    ∃ inv, invocations[k]? = some inv ∧ inv.id = id ∧ inv.isOpen
  covered : ∀ k inv, invocations[k]? = some inv → inv.isOpen → pending inv.id = some k

/-- A call of a list of calls with one more is in the list or the new one. -/
theorem get_append_singleton {invocations : List Invocation} {new inv : Invocation} {k : Nat}
    (h : (invocations ++ [new])[k]? = some inv) :
    invocations[k]? = some inv ∨ (k = invocations.length ∧ inv = new) := by
  by_cases hk : k < invocations.length
  · rw [List.getElem?_append_left hk] at h
    exact Or.inl h
  · rw [List.getElem?_append_right (by omega), List.getElem?_singleton] at h
    split at h
    · exact Or.inr ⟨by omega, (Option.some.inj h).symm⟩
    · exact absurd h nofun

theorem get_append_old {invocations : List Invocation} {inv : Invocation} {k : Nat}
    (h : invocations[k]? = some inv) (new : Invocation) :
    (invocations ++ [new])[k]? = some inv := by
  obtain ⟨hk, -⟩ := List.getElem?_eq_some_iff.mp h
  rw [List.getElem?_append_left hk, h]

theorem get_set_same {invocations : List Invocation} {inv : Invocation} {k : Nat}
    (h : invocations[k]? = some inv) (new : Invocation) :
    (invocations.set k new)[k]? = some new := by
  obtain ⟨hk, -⟩ := List.getElem?_eq_some_iff.mp h
  exact List.getElem?_set_self hk

/-- A call of a list of calls with another state of one is in the list or that state. -/
theorem get_set {invocations : List Invocation} {new inv : Invocation} {k j : Nat}
    (h : (invocations.set k new)[j]? = some inv) :
    (j ≠ k ∧ invocations[j]? = some inv) ∨ (j = k ∧ inv = new) := by
  by_cases hj : k = j
  · subst hj
    obtain ⟨hk, hnew⟩ := List.getElem?_eq_some_iff.mp h
    rw [List.getElem_set_self] at hnew
    exact Or.inr ⟨rfl, hnew.symm⟩
  · rw [List.getElem?_set_ne hj] at h
    exact Or.inl ⟨Ne.symm hj, h⟩

namespace Tidy

variable {pending : Int → Option Nat} {invocations : List Invocation} {inv new : Invocation}
  {k : Nat}

/-- A call that is not open has no entry. -/
theorem append_closed (h : Tidy pending invocations) (hnew : ¬ new.isOpen) :
    Tidy pending (invocations ++ [new]) := by
  refine ⟨fun id k hk => ?_, fun k inv hk hopen => ?_⟩
  · obtain ⟨inv, hinv, hid, hopen⟩ := h.entry id k hk
    exact ⟨inv, get_append_old hinv new, hid, hopen⟩
  · rcases get_append_singleton hk with hk | ⟨-, rfl⟩
    · exact h.covered k inv hk hopen
    · exact absurd hopen hnew

/-- A new call gets an entry under an id without one. -/
theorem append_open (h : Tidy pending invocations) (hnew : new.isOpen)
    (hfree : pending new.id = none) :
    Tidy (Function.update pending new.id (some invocations.length)) (invocations ++ [new]) := by
  refine ⟨fun id k hk => ?_, fun k inv hk hopen => ?_⟩
  · by_cases hid : id = new.id
    · subst hid
      rw [Function.update_self] at hk
      obtain rfl := Option.some.inj hk
      exact ⟨new, by simp, rfl, hnew⟩
    · rw [Function.update_of_ne hid] at hk
      obtain ⟨inv, hinv, hinvId, hopen⟩ := h.entry id k hk
      exact ⟨inv, get_append_old hinv new, hinvId, hopen⟩
  · rcases get_append_singleton hk with hk | ⟨rfl, rfl⟩
    · have hentry := h.covered k inv hk hopen
      have hid : inv.id ≠ new.id := fun heq => by
        rw [heq, hfree] at hentry
        exact absurd hentry nofun
      rw [Function.update_of_ne hid, hentry]
    · exact Function.update_self _ _ _

/-- A call whose state changes stays open, or stays not open. -/
theorem put (h : Tidy pending invocations) (hk : invocations[k]? = some inv)
    (hid : new.id = inv.id) (hopen : new.isOpen ↔ inv.isOpen) :
    Tidy pending (invocations.set k new) := by
  refine ⟨fun id j hj => ?_, fun j other hj hother => ?_⟩
  · obtain ⟨old, hold, holdId, holdOpen⟩ := h.entry id j hj
    by_cases hjk : j = k
    · subst hjk
      obtain rfl := Option.some.inj (hk.symm.trans hold)
      exact ⟨new, get_set_same hk new, hid.trans holdId, hopen.mpr holdOpen⟩
    · exact ⟨old, by rw [List.getElem?_set_ne (Ne.symm hjk), hold], holdId, holdOpen⟩
  · rcases get_set hj with ⟨-, hj⟩ | ⟨rfl, rfl⟩
    · exact h.covered j other hj hother
    · rw [hid]
      exact h.covered _ inv hk (hopen.mp hother)

/-- A call that stops being open takes its entry away. -/
theorem close (h : Tidy pending invocations) (hk : invocations[k]? = some inv)
    (hopen : inv.isOpen) (hnew : ¬ new.isOpen) :
    Tidy (Function.update pending inv.id none) (invocations.set k new) := by
  have hown := h.covered k inv hk hopen
  refine ⟨fun id j hj => ?_, fun j other hj hother => ?_⟩
  · have hid : id ≠ inv.id := by
      rintro rfl
      rw [Function.update_self] at hj
      exact absurd hj nofun
    rw [Function.update_of_ne hid] at hj
    obtain ⟨old, hold, holdId, holdOpen⟩ := h.entry id j hj
    have hjk : k ≠ j := by
      rintro rfl
      obtain rfl := Option.some.inj (hk.symm.trans hold)
      exact hid holdId.symm
    exact ⟨old, by rw [List.getElem?_set_ne hjk, hold], holdId, holdOpen⟩
  · rcases get_set hj with ⟨hjk, hj⟩ | ⟨rfl, rfl⟩
    · have hentry := h.covered j other hj hother
      have hid : other.id ≠ inv.id := fun heq => by
        rw [heq, hown] at hentry
        exact hjk (Option.some.inj hentry).symm
      rw [Function.update_of_ne hid, hentry]
    · exact absurd hother hnew

/-- No entry is that of a call that is not open. -/
theorem no_entry (h : Tidy pending invocations) (hclosed : ∀ inv, invocations[k]? = some inv →
    ¬ inv.isOpen) (id : Int) (j : Nat) : pending id = some j ↔ pending id = some j ∧ j ≠ k := by
  refine ⟨fun hj => ⟨hj, ?_⟩, fun hj => hj.1⟩
  rintro rfl
  obtain ⟨inv, hk, -, hopen⟩ := h.entry id j hj
  exact hclosed inv hk hopen

/-- Erasing the id of an open call takes away the entry of the call. -/
theorem erased_entry (h : Tidy pending invocations) (hk : invocations[k]? = some inv)
    (hopen : inv.isOpen) (id : Int) (j : Nat) :
    Function.update pending inv.id none id = some j ↔ pending id = some j ∧ j ≠ k := by
  have hown := h.covered k inv hk hopen
  by_cases hid : id = inv.id
  · subst hid
    rw [Function.update_self, hown]
    exact ⟨nofun, fun hj => absurd (Option.some.inj hj.1).symm hj.2⟩
  · rw [Function.update_of_ne hid]
    refine ⟨fun hj => ⟨hj, ?_⟩, fun hj => hj.1⟩
    rintro rfl
    obtain ⟨old, hold, holdId, -⟩ := h.entry id j hj
    obtain rfl := Option.some.inj (hk.symm.trans hold)
    exact hid holdId.symm

end Tidy

/-! ## What an event can do -/

/-- `Stepped s e s'` says what the event `e` does where it has a defined result. -/
inductive Stepped [Platform] (s : Calls σ) : Event → Calls σ → Prop where
  /-- The message takes no id. -/
  | refused (msg : Value) (e : Exception) :
      msg.assign (str "id") (.int (increment s.connection.nextId)) = .error e →
      Stepped s (.invoke msg)
        { s with
          connection := { s.connection with nextId := increment s.connection.nextId }
          invocations := s.invocations ++
            [⟨increment s.connection.nextId, msg, none, .threw e⟩] }
  | called (msg request : Value) :
      msg.assign (str "id") (.int (increment s.connection.nextId)) = .ok request →
      Stepped s (.invoke msg)
        { s with
          connection :=
            { s.connection with
              nextId := increment s.connection.nextId
              pendingReq := Function.update s.connection.pendingReq
                (increment s.connection.nextId) (some s.invocations.length) }
          invocations := s.invocations ++
            [⟨increment s.connection.nextId, request, none, .sending⟩] }
  | sent (k : Nat) (inv : Invocation) :
      s.invocations[k]? = some inv → inv.phase = .sending →
      Stepped s (.sent k) (s.put k { inv with phase := .waiting })
  | sendFailed (k : Nat) (e : Exception) (inv : Invocation) :
      s.invocations[k]? = some inv → inv.phase = .sending →
      Stepped s (.sendThrows k e) (s.put k { inv with phase := .threw e })
  | delivered (v : Value) (x : Double) (id : Int) (k : Nat) (inv : Invocation) :
      v.responseId = some x → x.toInt = some id → s.connection.pendingReq id = some k →
      s.invocations[k]? = some inv → inv.phase.inFlight = true →
      Stepped s (.receive v)
        { s.put k { inv with promise := some (s.arrivals, v) } with
          connection := s.connection.erase id
          arrivals := s.arrivals + 1 }
  | ignored (v : Value) : Unmatched s.connection s.alive v →
      Stepped s (.receive v)
        { s with
          connection := (s.connection.onReceive s.alive v).1
          arrivals := s.arrivals + 1 }
  | woken (k : Nat) (inv : Invocation) (n : Nat) (v : Value) :
      s.invocations[k]? = some inv → inv.phase = .waiting → inv.promise = some (n, v) →
      Stepped s (.wake k) (s.put k { inv with phase := .returned v })
  /-- The wait throws what the `catch` clause of `invoke` catches. -/
  | caught (k j : Nat) (e : Exception) (inv : Invocation) :
      s.invocations[k]? = some inv → inv.phase = .waiting → e.isBoost = true →
      s.connection.pendingReq inv.id = some j →
      Stepped s (.waitThrows k e)
        { s.put k { inv with phase := .threw e } with connection := s.connection.erase inv.id }
  | uncaught (k : Nat) (e : Exception) (inv : Invocation) :
      s.invocations[k]? = some inv → inv.phase = .waiting → e.isBoost = false →
      Stepped s (.waitThrows k e) (s.put k { inv with phase := .threw e })

variable [Platform] {s s' : Calls σ} {e : Event}

omit [Platform] in
theorem alive_iff {k : Nat} :
    s.alive k = true ↔ ∃ inv, s.invocations[k]? = some inv ∧ inv.phase.inFlight = true := by
  unfold Calls.alive
  cases s.invocations[k]? with
  | none => simp
  | some inv => simp

/-- A defined step is one of those. -/
theorem stepped_of_step (h : s.step e = .next s') : Stepped s e s' := by
  cases e with
  | invoke msg =>
      simp only [Calls.step, Connection.beginInvoke] at h
      cases hmsg : msg.assign (str "id") (.int (increment s.connection.nextId)) with
      | error e =>
          simp only [hmsg, Result.next.injEq] at h
          subst h
          exact .refused msg e hmsg
      | ok request =>
          simp only [hmsg, Result.next.injEq] at h
          subst h
          exact .called msg request hmsg
  | sent k =>
      simp only [Calls.step] at h
      split at h
      · rename_i id request promise hk
        obtain rfl := Result.next.inj h
        exact .sent k _ hk rfl
      · exact absurd h nofun
  | sendThrows k e =>
      simp only [Calls.step] at h
      split at h
      · rename_i id request promise hk
        obtain rfl := Result.next.inj h
        exact .sendFailed k e _ hk rfl
      · exact absurd h nofun
  | receive v =>
      rcases on_receive_cases s.connection s.alive v with
        ⟨x, id, k, hid, hx, hpending, halive, heq⟩ | ⟨x, -, -, heq⟩ | hunmatched
      · obtain ⟨inv, hk, hflight⟩ := alive_iff.mp halive
        simp only [Calls.step, heq, hk] at h
        obtain rfl := Result.next.inj h
        exact .delivered v x id k inv hid hx hpending hk hflight
      · simp only [Calls.step, heq] at h
        exact absurd h nofun
      · have hignored : s' =
            { s with
              connection := (s.connection.onReceive s.alive v).1
              arrivals := s.arrivals + 1 } := by
          simp only [Calls.step] at h
          split at h
          · rename_i c sent k v' heq
            have hnone := hunmatched.completed _ (congrArg Prod.snd heq)
            exact absurd hnone nofun
          · exact absurd h nofun
          · rename_i c outcome _ _ heq
            rw [heq]
            exact (Result.next.inj h).symm
        rw [hignored]
        exact .ignored v hunmatched
  | wake k =>
      simp only [Calls.step] at h
      split at h
      · rename_i id request n v hk
        obtain rfl := Result.next.inj h
        exact .woken k _ n v hk rfl rfl
      · exact absurd h nofun
  | waitThrows k e =>
      simp only [Calls.step] at h
      split at h
      · rename_i id request promise hk
        split at h
        · rename_i hboost
          split at h
          · rename_i j hj
            obtain rfl := Result.next.inj h
            exact .caught k j e _ hk rfl hboost hj
          · exact absurd h nofun
        · rename_i hboost
          obtain rfl := Result.next.inj h
          exact .uncaught k e _ hk rfl (by simpa using hboost)
      · exact absurd h nofun

/-! ## No stale entry -/

/-- The event does not leave an entry behind: a call that comes to `send` gets an id that is not
in the map, a `send` that throws does so behind the response to its call, and a wait that throws
throws what `invoke` catches exactly where there is no response yet. A response whose id is a number
has one that is an `int` behind the conversion. -/
def Orderly (s : Calls σ) : Event → Prop
  | .invoke _ => s.connection.pendingReq (increment s.connection.nextId) = none
  | .sendThrows k _ => ∀ inv, s.invocations[k]? = some inv → inv.promise ≠ none
  | .receive v => ∀ x, v.responseId = some x → x.toInt ≠ none
  | .waitThrows k e =>
      ∀ inv, s.invocations[k]? = some inv → (e.isBoost = true ↔ inv.promise = none)
  | _ => True

/-- Every orderly event keeps the entries tidy. -/
theorem tidy_step (hs : Tidy s.connection.pendingReq s.invocations) (horderly : Orderly s e)
    (h : Stepped s e s') : Tidy s'.connection.pendingReq s'.invocations := by
  cases h with
  | refused msg e hmsg => exact hs.append_closed fun hopen => absurd hopen.1 nofun
  | called msg request hmsg =>
      have hopen : Invocation.isOpen ⟨increment s.connection.nextId, request, none, .sending⟩ :=
        ⟨rfl, rfl⟩
      exact hs.append_open hopen horderly
  | sent k inv hk hphase =>
      refine hs.put hk rfl ⟨fun hopen => ⟨?_, hopen.2⟩, fun hopen => ⟨rfl, hopen.2⟩⟩
      rw [hphase]
      rfl
  | sendFailed k e inv hk hphase =>
      have hresponse := horderly inv hk
      exact hs.put hk rfl ⟨fun hopen => absurd hopen.1 nofun, fun hopen => absurd hopen.2 hresponse⟩
  | delivered v x id k inv hid hx hpending hk hflight =>
      obtain ⟨inv', hk', rfl, hopen⟩ := hs.entry id k hpending
      obtain rfl := Option.some.inj (hk.symm.trans hk')
      exact hs.close hk hopen fun hopen => absurd hopen.2 nofun
  | ignored v hunmatched =>
      rw [hunmatched.pendingReq]
      exact hs
  | woken k inv n v hk hphase hpromise =>
      refine hs.put hk rfl ⟨fun hopen => absurd hopen.1 nofun, fun hopen => ?_⟩
      exact absurd (hpromise.symm.trans hopen.2) nofun
  | caught k j e inv hk hphase hboost hj =>
      have hopen : inv.isOpen := ⟨by rw [hphase]; rfl, (horderly inv hk).mp hboost⟩
      exact hs.close hk hopen fun hopen => absurd hopen.1 nofun
  | uncaught k e inv hk hphase hboost =>
      refine hs.put hk rfl ⟨fun hopen => absurd hopen.1 nofun, fun hopen => ?_⟩
      exact absurd ((horderly inv hk).mpr hopen.2) (by simp [hboost])

theorem tidy_start (hs : calls.start s) : Tidy s.connection.pendingReq s.invocations := by
  obtain ⟨methods, world, rfl⟩ := hs
  exact ⟨fun _ _ h => absurd h nofun, fun _ _ h => absurd h nofun⟩

/-- Every orderly event has a defined result. -/
theorem defined_step (hs : Tidy s.connection.pendingReq s.invocations) (horderly : Orderly s e) :
    s.step e ≠ .undefined := by
  cases e with
  | invoke msg =>
      simp only [Calls.step]
      split <;> exact nofun
  | sent k | sendThrows k e | wake k =>
      simp only [Calls.step]
      split <;> exact nofun
  | receive v =>
      rcases on_receive_cases s.connection s.alive v with
        ⟨x, id, k, hid, hx, hpending, halive, heq⟩ | ⟨x, hid, hmisread, -⟩ | hunmatched
      · obtain ⟨inv, hk, -, hopen⟩ := hs.entry id k hpending
        simp only [Calls.step, heq, hk]
        exact nofun
      · -- the id converts, and an entry belongs to a call in flight
        obtain ⟨id, hx⟩ := Option.ne_none_iff_exists'.mp (horderly x hid)
        obtain ⟨k, hpending, hdead⟩ := hmisread id hx
        obtain ⟨inv, hk, -, hopen⟩ := hs.entry id k hpending
        exact absurd (alive_iff.mpr ⟨inv, hk, hopen.1⟩) (by simp [hdead])
      · simp only [Calls.step]
        split
        · rename_i c sent k v' heq
          exact absurd (hunmatched.completed _ (congrArg Prod.snd heq)) nofun
        · rename_i c heq
          exact absurd (congrArg Prod.snd heq) hunmatched.defined
        · exact nofun
  | waitThrows k e =>
      simp only [Calls.step]
      split
      · rename_i id request promise hk
        split
        · rename_i hboost
          -- without a response the entry is still there to erase
          have hopen : Invocation.isOpen ⟨id, request, promise, .waiting⟩ :=
            ⟨rfl, (horderly _ hk).mp hboost⟩
          have hentry : s.connection.pendingReq id = some k := hs.covered k _ hk hopen
          rw [hentry]
          exact nofun
        · exact nofun
      · exact nofun

/-- The call has left by an exception. -/
def Calls.threw (s : Calls σ) (k : Nat) : Prop :=
  ∃ inv e, s.invocations[k]? = some inv ∧ inv.phase = .threw e

/-- A call that leaves by an exception has removed its own entry and no other. -/
def LeavesClean (s s' : Calls σ) : Prop :=
  ∀ k, s'.threw k → ¬ s.threw k → ∀ id j,
    s'.connection.pendingReq id = some j ↔ s.connection.pendingReq id = some j ∧ j ≠ k

/-- Every entry belongs to a call that is still waiting. -/
def NoStaleEntry (s : Calls σ) : Prop :=
  ∀ id k, s.connection.pendingReq id = some k →
    ∃ inv, s.invocations[k]? = some inv ∧ inv.id = id ∧ inv.phase.inFlight = true

omit [Platform] in
/-- Where only the call `k` changes, only it can have left. -/
theorem threw_put {k j : Nat} {inv new : Invocation} (hk : s.invocations[k]? = some inv)
    (hj : (s.put k new).threw j) (hnot : ¬ s.threw j) : j = k ∧ ∃ e, new.phase = .threw e := by
  obtain ⟨other, e, hother, hphase⟩ := hj
  rcases get_set hother with ⟨-, hother⟩ | ⟨rfl, rfl⟩
  · exact absurd ⟨other, e, hother, hphase⟩ hnot
  · exact ⟨rfl, e, hphase⟩

/-- Every orderly event in a tidy state leaves clean. -/
theorem leaves_clean_step (hs : Tidy s.connection.pendingReq s.invocations)
    (horderly : Orderly s e) (h : Stepped s e s') : LeavesClean s s' := by
  intro i hi hnot
  cases h with
  | refused msg e hmsg =>
      -- the new call has not come to its entry
      obtain ⟨inv, e, hinv, hphase⟩ := hi
      rcases get_append_singleton hinv with hold | ⟨rfl, -⟩
      · exact absurd ⟨inv, e, hold, hphase⟩ hnot
      · exact hs.no_entry fun inv hinv => absurd hinv (by simp)
  | called msg request hmsg =>
      obtain ⟨inv, e, hinv, hphase⟩ := hi
      rcases get_append_singleton hinv with hold | ⟨-, rfl⟩
      · exact absurd ⟨inv, e, hold, hphase⟩ hnot
      · exact absurd hphase nofun
  | sent k inv hk hphase =>
      obtain ⟨-, e, he⟩ := threw_put hk hi hnot
      exact absurd he nofun
  | sendFailed k e inv hk hphase =>
      obtain ⟨rfl, -⟩ := threw_put hk hi hnot
      refine hs.no_entry fun inv hinv hopen => ?_
      exact horderly inv hinv hopen.2
  | delivered v x id k inv hid hx hpending hk hflight =>
      obtain ⟨-, e, he⟩ := threw_put (s := s) hk hi hnot
      rw [show inv.phase = .threw e from he] at hflight
      exact absurd hflight nofun
  | ignored v hunmatched => exact absurd hi hnot
  | woken k inv n v hk hphase hpromise =>
      obtain ⟨-, e, he⟩ := threw_put hk hi hnot
      exact absurd he nofun
  | caught k j e inv hk hphase hboost hj =>
      obtain ⟨rfl, -⟩ := threw_put (s := s) hk hi hnot
      have hopen : inv.isOpen := ⟨by rw [hphase]; rfl, (horderly inv hk).mp hboost⟩
      exact hs.erased_entry hk hopen
  | uncaught k e inv hk hphase hboost =>
      obtain ⟨rfl, -⟩ := threw_put hk hi hnot
      refine hs.no_entry fun inv hinv hopen => ?_
      exact absurd ((horderly inv hinv).mpr hopen.2) (by simp [hboost])

/-- In every run of orderly events every entry belongs to a call that is still waiting, the next
orderly event sets no promise and erases no entry that is not there, and a call that leaves by an
exception has removed its own entry and no other. -/
theorem no_stale_entry {es : List Event} (hrun : Lts.Run calls Orderly es s) :
    NoStaleEntry s ∧ ∀ e, Orderly s e →
      s.step e ≠ .undefined ∧ ∀ s', s.step e = .next s' → LeavesClean s s' := by
  have htidy : Tidy s.connection.pendingReq s.invocations :=
    hrun.invariant (P := fun s => Tidy s.connection.pendingReq s.invocations)
      (fun s hs => tidy_start hs) fun s e s' hs horderly hnext =>
        tidy_step hs horderly (stepped_of_step hnext)
  refine ⟨fun id k hk => ?_, fun e horderly => ⟨defined_step htidy horderly, fun s' hnext => ?_⟩⟩
  · obtain ⟨inv, hinv, hid, hopen⟩ := htidy.entry id k hk
    exact ⟨inv, hinv, hid, hopen.1⟩
  · exact leaves_clean_step htidy horderly (stepped_of_step hnext)

/-- The run without an event. -/
theorem run_nil (guard : Calls σ → Event → Prop) (methods : Text → Option (Handler σ)) (world : σ) :
    Lts.Run calls guard [] ⟨.fresh methods world, [], 0⟩ := .start _ ⟨methods, world, rfl⟩

/-- A run with one event more. -/
theorem run_snoc {guard : Calls σ → Event → Prop} {es : List Event}
    (hrun : Lts.Run calls guard es s)
    (e : Event) (hguard : guard s e) (hstep : s.step e = .next s') :
    Lts.Run calls guard (es ++ [e]) s' := .step es s s' e hrun hguard hstep

/-- The request that `invoke` sends for an empty message, and a response without members but the
id. -/
def bare (id : Int) : Value := .object [(str "id", .int id)]

omit [Platform] in
/-- Three calls: one gets its response before its `send` throws, the wait of one ends at its
timeout, and one waits. -/
theorem no_stale_entry_three :
    letI := Platform.exact true
    ∃ s : Calls Unit,
      s.invocations = [⟨1, bare 1, some (0, bare 1), .threw .foreign⟩,
        ⟨2, bare 2, none, .threw (.boost (str "timeout"))⟩, ⟨3, bare 3, none, .waiting⟩] ∧
      NoStaleEntry s ∧ ∀ e, Orderly s e →
        s.step e ≠ .undefined ∧ ∀ s', s.step e = .next s' → LeavesClean s s' := by
  let _ := Platform.exact true
  have hresponse : ∀ x, (bare 1).responseId = some x → x.toInt ≠ none := by
    intro x hx
    obtain rfl := Option.some.inj hx
    rw [Double.to_int_of_range (by decide)]
    nofun
  have first := run_snoc (run_nil Orderly (fun _ => none) ()) (.invoke .null) rfl rfl
  have second := run_snoc first (.invoke .null) rfl rfl
  have third := run_snoc second (.invoke .null) rfl rfl
  have received := run_snoc third (.receive (bare 1)) hresponse rfl
  have failed := run_snoc received (.sendThrows 0 .foreign)
    (fun inv hinv => by obtain rfl := Option.some.inj hinv; nofun) rfl
  have sent := run_snoc failed (.sent 1) trivial rfl
  have timeout := run_snoc sent (.waitThrows 1 (.boost (str "timeout")))
    (fun inv hinv => by obtain rfl := Option.some.inj hinv; exact iff_of_true rfl rfl) rfl
  have waits := run_snoc timeout (.sent 2) trivial rfl
  exact ⟨_, rfl, no_stale_entry waits⟩

omit [Platform] in
/-- A `send` that throws leaves the entry of its call behind. -/
theorem stale_entry_after_send :
    letI := Platform.exact true
    ¬ ∀ (es : List Event) (s : Calls Unit), Lts.Run calls (fun _ _ => True) es s →
      NoStaleEntry s ∧
        ∀ e, s.step e ≠ .undefined ∧ ∀ s', s.step e = .next s' → LeavesClean s s' := by
  let _ := Platform.exact true
  intro h
  have hcalled := run_snoc (run_nil (fun (_ : Calls Unit) _ => True) (fun _ => none) ())
    (.invoke .null) trivial rfl
  have hrun := run_snoc hcalled (.sendThrows 0 .foreign) trivial rfl
  obtain ⟨inv, hinv, -, hflight⟩ := (h _ _ hrun).1 1 0 rfl
  obtain rfl := Option.some.inj hinv
  exact absurd hflight nofun

/-! ## Which response a call gets -/

/-- A response: an object without a method and with an `int` as its id. -/
def IsResponse (v : Value) : Prop :=
  ∃ keys : Object, ∃ n : Int, v = .object keys ∧ keys.find? (str "method") = none ∧
    keys.find? (str "id") = some (.int n) ∧ InInt n

/-- There are fewer than `2 ^ 31` calls, no `send` throws, only responses arrive, and a wait
throws at its timeout only: without a value on its promise, and an exception of Boost. -/
def Regular (s : Calls σ) : Event → Prop
  | .invoke _ => s.invocations.length + 1 < 2 ^ 31
  | .sendThrows _ _ => False
  | .receive v => IsResponse v
  | .waitThrows k e =>
      e.isBoost = true ∧ ∀ inv, s.invocations[k]? = some inv → inv.promise = none
  | _ => True

/-- What is known of the call `k` after a number of arrivals. -/
structure Invocation.Traced (inv : Invocation) (k arrivals : Nat) : Prop where
  /-- The calls are numbered from one. -/
  id : inv.id = k + 1
  /-- The request carries the id, unless the call has ended without sending it. -/
  request : (∀ e, inv.phase ≠ .threw e) → inv.request.at (str "id") = .ok (.int inv.id)
  /-- A value on the promise came with the id of the call. -/
  response : ∀ n v, inv.promise = some (n, v) →
    n < arrivals ∧ v.at (str "id") = .ok (.int inv.id)
  /-- The value that the call returns is the one on its promise. -/
  returned : ∀ v, inv.phase = .returned v → ∃ n, inv.promise = some (n, v)

/-- The calls and the values on their promises. -/
structure Traced (invocations : List Invocation) (arrivals : Nat) : Prop where
  few : invocations.length < 2 ^ 31
  each : ∀ (k : Nat) (inv : Invocation), invocations[k]? = some inv → inv.Traced k arrivals
  /-- No message sets two promises. -/
  once : ∀ (j k : Nat) (first second : Invocation) (n : Nat) (v w : Value),
    invocations[j]? = some first → invocations[k]? = some second →
      first.promise = some (n, v) → second.promise = some (n, w) → j = k

namespace Traced

variable {invocations : List Invocation} {arrivals k : Nat} {inv new : Invocation}

omit [Platform] in
/-- A message arrives. -/
theorem later (h : Traced invocations arrivals) : Traced invocations (arrivals + 1) := by
  refine ⟨h.few, fun k inv hk => ?_, h.once⟩
  have hinv := h.each k inv hk
  exact ⟨hinv.id, hinv.request, fun n v hv => ⟨Nat.lt_succ_of_lt (hinv.response n v hv).1,
    (hinv.response n v hv).2⟩, hinv.returned⟩

omit [Platform] in
/-- A new call has no value on its promise. -/
theorem append (h : Traced invocations arrivals) (hfew : invocations.length + 1 < 2 ^ 31)
    (hnew : new.Traced invocations.length arrivals) (hpromise : new.promise = none) :
    Traced (invocations ++ [new]) arrivals := by
  refine ⟨by simpa using hfew, fun k inv hk => ?_, ?_⟩
  · rcases get_append_singleton hk with hk | ⟨rfl, rfl⟩
    · exact h.each k inv hk
    · exact hnew
  · intro j k first second n v w hj hk hfirst hsecond
    rcases get_append_singleton hj with hj | ⟨rfl, rfl⟩
    · rcases get_append_singleton hk with hk | ⟨rfl, rfl⟩
      · exact h.once j k first second n v w hj hk hfirst hsecond
      · exact absurd (hpromise.symm.trans hsecond) nofun
    · exact absurd (hpromise.symm.trans hfirst) nofun

omit [Platform] in
/-- The phase of a call changes. -/
theorem phase (h : Traced invocations arrivals) (hk : invocations[k]? = some inv) {phase : Phase}
    (hrequest : (∀ e, phase ≠ .threw e) → ∀ e, inv.phase ≠ .threw e)
    (hreturned : ∀ v, phase = .returned v → ∃ n, inv.promise = some (n, v)) :
    Traced (invocations.set k { inv with phase := phase }) arrivals := by
  have hinv := h.each k inv hk
  have promise_kept : ∀ (j : Nat) (other : Invocation),
      (invocations.set k { inv with phase := phase })[j]? = some other →
        ∃ old : Invocation, invocations[j]? = some old ∧ old.promise = other.promise := by
    intro j other hj
    rcases get_set hj with ⟨-, hj⟩ | ⟨rfl, rfl⟩
    · exact ⟨other, hj, rfl⟩
    · exact ⟨inv, hk, rfl⟩
  refine ⟨by simpa using h.few, fun j other hj => ?_, ?_⟩
  · rcases get_set hj with ⟨-, hj⟩ | ⟨rfl, rfl⟩
    · exact h.each j other hj
    · exact ⟨hinv.id, fun hphase => hinv.request (hrequest hphase), hinv.response, hreturned⟩
  · intro i j first second n v w hi hj hfirst hsecond
    obtain ⟨old, hold, hpold⟩ := promise_kept i first hi
    obtain ⟨old', hold', hpold'⟩ := promise_kept j second hj
    exact h.once i j old old' n v w hold hold' (hpold.trans hfirst) (hpold'.trans hsecond)

omit [Platform] in
/-- A message sets the promise of a call with the id of the message. -/
theorem deliver (h : Traced invocations arrivals) (hk : invocations[k]? = some inv)
    (hflight : inv.phase.inFlight = true) {v : Value}
    (hv : v.at (str "id") = .ok (.int inv.id)) :
    Traced (invocations.set k { inv with promise := some (arrivals, v) }) (arrivals + 1) := by
  have hinv := h.later.each k inv hk
  have hfresh : ∀ (j : Nat) (other : Invocation) (w : Value), invocations[j]? = some other →
      other.promise ≠ some (arrivals, w) := by
    intro j other w hj hother
    exact absurd ((h.each j other hj).response _ _ hother).1 (Nat.lt_irrefl _)
  refine ⟨by simpa using h.few, fun j other hj => ?_, ?_⟩
  · rcases get_set hj with ⟨-, hj⟩ | ⟨rfl, rfl⟩
    · exact h.later.each j other hj
    · refine ⟨hinv.id, hinv.request, fun n w hw => ?_, fun w hw => ?_⟩
      · obtain ⟨rfl, rfl⟩ := Prod.mk.inj (Option.some.inj hw)
        exact ⟨Nat.lt_succ_self _, hv⟩
      · rw [show inv.phase = .returned w from hw] at hflight
        exact absurd hflight nofun
  · intro i j first second n w w' hi hj hfirst hsecond
    rcases get_set hi with ⟨-, hold⟩ | ⟨rfl, rfl⟩
    · rcases get_set hj with ⟨-, hold'⟩ | ⟨rfl, rfl⟩
      · exact h.once i j first second n w w' hold hold' hfirst hsecond
      · obtain ⟨rfl, rfl⟩ := Prod.mk.inj (Option.some.inj hsecond)
        exact absurd hfirst (hfresh i first w hold)
    · rcases get_set hj with ⟨-, hold'⟩ | ⟨rfl, rfl⟩
      · obtain ⟨rfl, rfl⟩ := Prod.mk.inj (Option.some.inj hfirst)
        exact absurd hsecond (hfresh j second w' hold')
      · rfl

end Traced

/-- The invariant of the regular runs. -/
structure Correlated (s : Calls σ) : Prop where
  tidy : Tidy s.connection.pendingReq s.invocations
  nextId : s.connection.nextId = s.invocations.length
  traced : Traced s.invocations s.arrivals

omit [Platform] in
/-- Below the last id an increment adds one. -/
theorem increment_length {n : Nat} (h : n + 1 < 2 ^ 31) : increment n = n + 1 :=
  Int.bmod_eq_of_le_mul_two (by omega) (by omega)

omit [Platform] in
/-- The id of a response. -/
theorem response_id {v : Value} (hv : IsResponse v) :
    ∃ n : Int, v.responseId = some (.finite n) ∧ InInt n ∧ v.at (str "id") = .ok (.int n) := by
  obtain ⟨keys, n, rfl, hmethod, hfind, hrange⟩ := hv
  exact ⟨n, response_id_number hmethod hfind, hrange, at_of_find hfind⟩

omit [Platform] in
/-- A regular event is orderly. -/
theorem orderly_of_regular (hs : Correlated s) (h : Regular s e) : Orderly s e := by
  cases e with
  | invoke msg =>
      show s.connection.pendingReq (increment s.connection.nextId) = none
      rw [hs.nextId, increment_length h]
      cases hentry : s.connection.pendingReq (s.invocations.length + 1) with
      | none => rfl
      | some k =>
          obtain ⟨inv, hinv, hid, -⟩ := hs.tidy.entry _ _ hentry
          obtain ⟨hk, -⟩ := List.getElem?_eq_some_iff.mp hinv
          have hnumber := (hs.traced.each k inv hinv).id
          omega
  | sendThrows k e => exact absurd h id
  | receive v =>
      intro x hx
      obtain ⟨n, hread, hrange, -⟩ := response_id h
      obtain rfl := Option.some.inj (hread.symm.trans hx)
      rw [Double.to_int_of_range hrange]
      nofun
  | waitThrows k e => exact fun inv hinv => ⟨fun _ => h.2 inv hinv, fun _ => h.1⟩
  | sent | wake => exact trivial

/-- Every regular event keeps the invariant. -/
theorem correlated_step (hs : Correlated s) (hregular : Regular s e) (h : Stepped s e s') :
    Correlated s' := by
  have htidy := tidy_step hs.tidy (orderly_of_regular hs hregular) h
  cases h with
  | refused msg e hmsg =>
      have hnext : increment s.connection.nextId = s.invocations.length + 1 := by
        rw [hs.nextId, increment_length hregular]
      refine ⟨htidy, by simpa using hnext, hs.traced.append hregular ⟨hnext, ?_, ?_, ?_⟩ rfl⟩
      · exact fun h => absurd rfl (h e)
      · exact nofun
      · exact nofun
  | called msg request hmsg =>
      have hnext : increment s.connection.nextId = s.invocations.length + 1 := by
        rw [hs.nextId, increment_length hregular]
      refine ⟨htidy, by simpa using hnext, hs.traced.append hregular ⟨hnext, ?_, ?_, ?_⟩ rfl⟩
      · exact fun _ => Value.at_assign hmsg
      · exact nofun
      · exact nofun
  | sent k inv hk hphase =>
      refine ⟨htidy, by simpa [Calls.put] using hs.nextId, hs.traced.phase hk (fun _ => ?_) nofun⟩
      rw [hphase]
      exact nofun
  | sendFailed k e inv hk hphase => exact absurd hregular id
  | delivered v x id k inv hid hx hpending hk hflight =>
      obtain ⟨inv', hk', rfl, -⟩ := hs.tidy.entry id k hpending
      obtain rfl := Option.some.inj (hk.symm.trans hk')
      obtain ⟨n, hread, -, hv⟩ := response_id hregular
      obtain rfl := Option.some.inj (hid.symm.trans hread)
      rw [Double.int_of_to_int hx] at hv
      exact ⟨htidy, by simpa [Calls.put, Connection.erase] using hs.nextId,
        hs.traced.deliver hk hflight hv⟩
  | ignored v hunmatched =>
      exact ⟨htidy, hunmatched.nextId.trans hs.nextId, hs.traced.later⟩
  | woken k inv n v hk hphase hpromise =>
      refine ⟨htidy, by simpa [Calls.put] using hs.nextId,
        hs.traced.phase hk (fun _ => ?_) fun w hw => ?_⟩
      · rw [hphase]
        exact nofun
      · obtain rfl := Phase.returned.inj hw
        exact ⟨n, hpromise⟩
  | caught k j e inv hk hphase hboost hj =>
      exact ⟨htidy, by simpa [Calls.put, Connection.erase] using hs.nextId,
        hs.traced.phase hk (fun h => absurd rfl (h e)) nofun⟩
  | uncaught k e inv hk hphase hboost =>
      exact absurd (hregular.1.symm.trans hboost) nofun

theorem correlated_start (hs : calls.start s) : Correlated s := by
  have htidy := tidy_start hs
  obtain ⟨methods, world, rfl⟩ := hs
  exact ⟨htidy, rfl, Nat.two_pow_pos 31, fun _ _ h => absurd h nofun,
    fun _ _ _ _ _ _ _ h => absurd h nofun⟩

/-- What holds of the calls and the responses in a state of a connection. -/
structure Correlation (s : Calls σ) : Prop where
  /-- Calls in flight have different ids. -/
  distinct : ∀ (j k : Nat) (first second : Invocation), s.invocations[j]? = some first →
    s.invocations[k]? = some second → first.phase.inFlight = true →
      second.phase.inFlight = true → first.id = second.id → j = k
  /-- A call returns a message that arrived and has the id of its request. -/
  matched : ∀ (k : Nat) (inv : Invocation) (v : Value), s.invocations[k]? = some inv →
    inv.phase = .returned v → (∃ n, inv.promise = some (n, v) ∧ n < s.arrivals) ∧
      inv.request.at (str "id") = .ok (.int inv.id) ∧ v.at (str "id") = .ok (.int inv.id)
  /-- A message that arrived completes at most one call. -/
  once : ∀ (j k : Nat) (first second : Invocation) (n : Nat) (v w : Value),
    s.invocations[j]? = some first → s.invocations[k]? = some second →
      first.promise = some (n, v) → second.promise = some (n, w) → j = k
  /-- A response with the id of no call that waits for one changes no entry. -/
  unknown : ∀ (v : Value) (s' : Calls σ), IsResponse v →
    (∀ (k : Nat) (inv : Invocation), s.invocations[k]? = some inv → inv.isOpen →
      v.responseId ≠ some (.finite inv.id)) →
    s.step (.receive v) = .next s' → s'.connection.pendingReq = s.connection.pendingReq
  /-- No event sets the promise of a call that has left or erases an entry that is not there. -/
  defined : ∀ e, Regular s e → s.step e ≠ .undefined

/-- In every regular run the responses go to the calls with their ids. -/
theorem correlation {es : List Event} (hrun : Lts.Run calls Regular es s) : Correlation s := by
  have hs : Correlated s := hrun.invariant (P := Correlated) (fun s hs => correlated_start hs)
    fun s e s' hs hregular hnext => correlated_step hs hregular (stepped_of_step hnext)
  refine ⟨?_, ?_, hs.traced.once, ?_, fun e hregular =>
    defined_step hs.tidy (orderly_of_regular hs hregular)⟩
  · intro j k first second hj hk _ _ hid
    have hfirst := (hs.traced.each j first hj).id
    have hsecond := (hs.traced.each k second hk).id
    omega
  · intro k inv v hk hphase
    have hinv := hs.traced.each k inv hk
    obtain ⟨n, hn⟩ := hinv.returned v hphase
    obtain ⟨hlt, hv⟩ := hinv.response n v hn
    refine ⟨⟨n, hn, hlt⟩, hinv.request (fun e => ?_), hv⟩
    rw [hphase]
    exact nofun
  · intro v s' hv hnone hnext
    cases stepped_of_step hnext with
    | delivered v x id k inv hid hx hpending hk hflight =>
        obtain ⟨inv', hk', rfl, hopen⟩ := hs.tidy.entry id k hpending
        obtain ⟨n, hread, -, -⟩ := response_id hv
        obtain rfl := Option.some.inj (hid.symm.trans hread)
        rw [Double.int_of_to_int hx] at hid
        exact absurd hid (hnone k inv' hk' hopen)
    | ignored v hunmatched => exact hunmatched.pendingReq

omit [Platform] in
/-- Two calls, whose responses come in the other order. -/
theorem correlation_swapped :
    letI := Platform.exact true
    ∃ s : Calls Unit, s.invocations = [⟨1, bare 1, some (1, bare 1), .returned (bare 1)⟩,
      ⟨2, bare 2, some (0, bare 2), .returned (bare 2)⟩] ∧ Correlation s := by
  let _ := Platform.exact true
  have hresponse : ∀ n : Int, InInt n → IsResponse (bare n) :=
    fun n hn => ⟨_, n, rfl, rfl, rfl, hn⟩
  have hone : 0 + 1 < 2 ^ 31 := by decide
  have htwo : 1 + 1 < 2 ^ 31 := by decide
  have first := run_snoc (run_nil Regular (fun _ => none) ()) (.invoke .null) hone rfl
  have second := run_snoc first (.invoke .null) htwo rfl
  have sent := run_snoc second (.sent 0) trivial rfl
  have other := run_snoc sent (.receive (bare 2)) (hresponse 2 (by decide)) rfl
  have own := run_snoc other (.receive (bare 1)) (hresponse 1 (by decide)) rfl
  have woken := run_snoc own (.wake 0) trivial rfl
  have sent' := run_snoc woken (.sent 1) trivial rfl
  have woken' := run_snoc sent' (.wake 1) trivial rfl
  exact ⟨_, rfl, correlation woken'⟩

end BoostRpc.Json
