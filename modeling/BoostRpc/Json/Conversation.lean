import BoostRpc.Json.LockUp
import BoostRpc.Json.Sessions
import Mathlib.Data.List.Nodup

/-!
# Conversations

Two peers that call each other, with handlers that may call back before they return. A conversation
is the list of the messages that the two take and send.

`calls_in_order` says that the parties get each other's calls once and in order, and that the fibers
get the responses to their own; `settles` that the calls come to their end however the read loops
are scheduled.
-/

namespace BoostRpc.Json

open Lts

variable {σ : Type}

/-! ## What is said -/

/-- What a party does to the messages in a step. -/
structure Said where
  side : Side
  /-- The fiber that calls, or that waits for the response. -/
  fiber : Option Fiber
  taken : Option Message
  sent : Option Message

/-- The message that a party takes. -/
def Peer.taken (p : Peer σ) : Action → Option Message
  | .read => p.inbox.head?
  | _ => none

/-- The fiber that a request or a response belongs to. -/
def Peer.fiber (p : Peer σ) : Action → Option Fiber
  | .invoke f => some f
  | .read =>
      match p.inbox with
      | .response r :: _ => p.pendingReq r.id
      | _ => none
  | _ => none

/-- What is said in a step. -/
def Link.said (l : Link σ) (e : Side × Action) : Option Said :=
  match (l e.1).act e.2 with
  | .next (_, sent) => some ⟨e.1, (l e.1).fiber e.2, (l e.1).taken e.2, sent⟩
  | _ => none

/-- The messages that a party takes. -/
def Said.takenBy (s : Side) (x : Said) : List Message :=
  if x.side = s then x.taken.toList else []

/-- The messages that a party sends. -/
def Said.sentBy (s : Side) (x : Said) : List Message :=
  if x.side = s then x.sent.toList else []

/-- The requests among some messages. -/
def requests : List Message → List (Id × Text × Value) :=
  List.filterMap fun
    | .request id method params => some (id, method, params)
    | .response _ => none

/-- The responses among some messages. -/
def responses : List Message → List Response :=
  List.filterMap fun
    | .request _ _ _ => none
    | .response r => some r

/-- The calls of a party: their ids and who makes them. -/
def Said.calls (s : Side) (x : Said) : List (Id × Option Fiber) :=
  (requests (x.sentBy s)).map fun request => (request.1, x.fiber)

/-- The responses that a party takes, and whose they are. -/
def Said.resumes (s : Side) (x : Said) : List (Option Fiber × Response) :=
  (responses (x.takenBy s)).map fun r => (x.fiber, r)

/-- The handlers throw nothing that goes past `on_receive`. -/
def Caught (l : Link σ) (e : Side × Action) : Prop :=
  e.2 = .reply → ∀ id rtn, (l e.1).loop ≠ .handling id (.running (.finished rtn (some .foreign)))

/-- The request that a party handles. -/
def Peer.handled (p : Peer σ) : List Id :=
  match p.loop with
  | .handling id _ => [id]
  | _ => []

/-! ## The messages -/

section Steps

variable {l l' : Link σ} {s t : Side} {a : Action} {p : Peer σ} {sent : Option Message}

/-- What is said in a step of one party. -/
theorem said_of_acted (h : Acted (l t) a p sent) :
    l.said (t, a) = some ⟨t, (l t).fiber a, (l t).taken a, sent⟩ := by
  simp only [Link.said, act_of_acted h]

/-- A party takes the first of the messages on their way to it. -/
theorem inbox_of_acted {p : Peer σ} {p' : Peer σ} (h : Acted p a p' sent) :
    (p.taken a).toList ++ p'.inbox = p.inbox := by
  cases h with
  | invoked f method params next hf => exact Peer.set_activity_inbox _ _ _
  | woke f response next hf => exact Peer.set_activity_inbox _ _ _
  | called id method params inbox handler hloop hinbox hmethod =>
      simp only [Peer.taken, hinbox]
      rfl
  | refused id method params inbox hloop hinbox hmethod =>
      simp only [Peer.taken, hinbox]
      rfl
  | resumed r f next inbox hloop hinbox hf hnext =>
      simp only [Peer.taken, hinbox, Peer.set_activity_inbox]
      rfl
  | ignored r inbox hloop hinbox hr =>
      simp only [Peer.taken, hinbox]
      rfl
  | replied id rtn thrown r hloop hr => rfl
  | escaped id rtn hloop => rfl

end Steps

/-- The messages that a party takes, and those that are on their way to it, are those that the
other sends. -/
theorem messages_in_order {guard : Link σ → Side × Action → Prop} {h : List Said} {l : Link σ}
    (htrace : Trace links guard Link.said h l) (s : Side) :
    h.flatMap (Said.takenBy s) ++ (l s).inbox = h.flatMap (Said.sentBy s.other) := by
  refine (htrace.fifo (P := fun _ => True) (fun l => (l s).inbox) (Said.sentBy s.other)
    (Said.takenBy s) [] (fun l hl => ⟨trivial, (hl s).2.1⟩) ?_).2
  intro l e l' _ _ hstep
  obtain ⟨t, a⟩ := e
  obtain ⟨p, sent, hacted, rfl⟩ := links_step_iff.mp hstep
  refine ⟨trivial, ?_⟩
  rw [said_of_acted hacted]
  simp only [Option.toList_some, List.flatMap_cons, List.flatMap_nil, List.append_nil]
  rcases Side.eq_or_other t s with rfl | rfl
  · rw [after_same, Said.takenBy, if_pos rfl, Said.sentBy, if_neg (Side.other_ne _).symm,
      List.append_nil]
    exact inbox_of_acted hacted
  · have hother : t.other.other = t := by cases t <;> rfl
    rw [after_other, Said.takenBy, if_neg (Side.other_ne _).symm, Said.sentBy, hother, if_pos rfl]
    cases sent with
    | none => exact (List.append_nil _).symm
    | some msg => rfl

/-! ## The answers -/

/-- A response keeps the id of its request. -/
theorem caught_id {r r' : Response} {thrown : Option Exception} (h : r.caught thrown = some r') :
    r'.id = r.id := by
  cases thrown with
  | none =>
      obtain rfl := Option.some.inj h
      rfl
  | some e =>
      cases e with
      | std e derived =>
          obtain rfl := Option.some.inj h
          rfl
      | boost diagnostic =>
          obtain rfl := Option.some.inj h
          rfl
      | foreign => cases h

/-- A fiber that goes on leaves the request that is handled. -/
@[simp] theorem set_activity_handled (p : Peer σ) (a : Activity σ) (f : Fiber) :
    (p.setActivity a f).handled = p.handled := by
  unfold Peer.setActivity Peer.handled
  cases f with
  | readLoop => cases hloop : p.loop <;> simp [hloop]
  | caller n => rfl

/-- A message that arrives leaves it as well. -/
theorem deliver_handled (p : Peer σ) (sent : Option Message) :
    (p.deliver sent).handled = p.handled := by
  cases sent <;> rfl

/-- A party answers the request that it handles, or the one that it takes. -/
theorem handled_of_acted {p p' : Peer σ} {a : Action} {sent : Option Message}
    (h : Acted p a p' sent) (hcaught : a = .reply →
      ∀ id rtn, p.loop ≠ .handling id (.running (.finished rtn (some .foreign)))) :
    (responses sent.toList).map Response.id ++ p'.handled =
      p.handled ++ (requests (p.taken a).toList).map Prod.fst := by
  cases h with
  | invoked f method params next hf =>
      rw [set_activity_handled]
      exact (List.append_nil _).symm
  | woke f response next hf =>
      rw [set_activity_handled]
      exact (List.append_nil _).symm
  | called id method params inbox handler hloop hinbox hmethod =>
      simp only [Peer.taken, hinbox, Peer.handled, hloop]
      rfl
  | refused id method params inbox hloop hinbox hmethod =>
      simp only [Peer.taken, hinbox, Peer.handled, hloop]
      rfl
  | resumed r f next inbox hloop hinbox hf hnext =>
      rw [set_activity_handled]
      simp only [Peer.taken, hinbox, Peer.handled, hloop]
      rfl
  | ignored r inbox hloop hinbox hr =>
      simp only [Peer.taken, hinbox, Peer.handled, hloop]
      rfl
  | replied id rtn thrown r hloop hr =>
      have hid : r.id = id := caught_id hr
      simp only [Peer.taken, Peer.handled, hloop]
      show [r.id] ++ [] = [id] ++ []
      rw [hid]
  | escaped id rtn hloop => exact absurd hloop (hcaught rfl id rtn)

/-- The requests that a party takes are those that it answers, in their order, and the one that it
handles. -/
theorem answers_in_order {h : List Said} {l : Link σ}
    (htrace : Trace links Caught Link.said h l) (s : Side) :
    (responses (h.flatMap (Said.sentBy s))).map Response.id ++ (l s).handled =
      (requests (h.flatMap (Said.takenBy s))).map Prod.fst := by
  have hfifo := (htrace.fifo (P := fun _ => True) (fun l => (l s).handled)
    (fun x => (requests (x.takenBy s)).map Prod.fst)
    (fun x => (responses (x.sentBy s)).map Response.id) [] ?_ ?_).2
  · rwa [← List.map_flatMap, ← List.map_flatMap, responses, requests, ← List.filterMap_flatMap,
      ← List.filterMap_flatMap] at hfifo
  · intro l hl
    refine ⟨trivial, ?_⟩
    simp only [Peer.handled, (hl s).1]
  · intro l e l' _ hcaught hstep
    obtain ⟨t, a⟩ := e
    obtain ⟨p, sent, hacted, rfl⟩ := links_step_iff.mp hstep
    refine ⟨trivial, ?_⟩
    rw [said_of_acted hacted]
    simp only [Option.toList_some, List.flatMap_cons, List.flatMap_nil, List.append_nil]
    rcases Side.eq_or_other t s with rfl | rfl
    · rw [after_same, Said.takenBy, if_pos rfl, Said.sentBy, if_pos rfl]
      exact handled_of_acted hacted hcaught
    · rw [after_other, deliver_handled, Said.takenBy, if_neg (Side.other_ne _).symm, Said.sentBy,
        if_neg (Side.other_ne _).symm]
      exact (List.append_nil _).symm

/-! ## The calls of a party -/

section Zip

variable {α β : Type} {as : List α} {bs : List β}

/-- More on the left, where the right is the shorter. -/
theorem zip_append_of_le (h : bs.length ≤ as.length) (as' : List α) :
    (as ++ as').zip bs = as.zip bs := by
  induction bs generalizing as with
  | nil => rw [List.zip_nil_right, List.zip_nil_right]
  | cons b bs ih =>
      cases as with
      | nil => cases h
      | cons a as => exact congrArg ((a, b) :: ·) (ih (Nat.le_of_succ_le_succ h))

/-- One more on the right. -/
theorem zip_concat {a : α} {as' : List α} (h : as.drop bs.length = a :: as') (b : β) :
    as.zip (bs ++ [b]) = as.zip bs ++ [(a, b)] := by
  induction bs generalizing as with
  | nil =>
      obtain rfl : as = a :: as' := h
      cases as' <;> rfl
  | cons b' bs ih =>
      cases as with
      | nil => cases h
      | cons a' as => exact congrArg ((a', b') :: ·) (ih h)

/-- Where the right is a prefix, so is the pairing. -/
theorem zip_prefix {bs' : List β} (as : List α) (h : bs <+: bs') : as.zip bs <+: as.zip bs' := by
  obtain ⟨rest, rfl⟩ := h
  induction bs generalizing as with
  | nil =>
      rw [List.zip_nil_right]
      exact List.nil_prefix
  | cons b bs ih =>
      cases as with
      | nil => exact List.prefix_rfl
      | cons a as => exact List.cons_prefix_cons.mpr ⟨rfl, ih as⟩

end Zip

/-- The calls that a party has made. -/
def callsOf (s : Side) (h : List Said) : List (Id × Option Fiber) := h.flatMap (Said.calls s)

/-- The requests that a party has sent. -/
def askedBy (s : Side) (h : List Said) : List (Id × Text × Value) :=
  requests (h.flatMap (Said.sentBy s))

/-- The requests that a party has taken. -/
def servedBy (s : Side) (h : List Said) : List (Id × Text × Value) :=
  requests (h.flatMap (Said.takenBy s))

/-- The responses that a party has sent. -/
def answeredBy (s : Side) (h : List Said) : List Response :=
  responses (h.flatMap (Said.sentBy s))

/-- The responses that a party has taken. -/
def gotBy (s : Side) (h : List Said) : List Response := responses (h.flatMap (Said.takenBy s))

/-- Every call is answered and taken in its turn: it has been, or its response is on its way, or it
is handled, or its request is on its way. -/
theorem calls_in_turn {h : List Said} {l : Link σ}
    (htrace : Trace links Caught Link.said h l) (s : Side) :
    (callsOf s h).map Prod.fst = (gotBy s h).map Response.id ++
      ((responses (l s).inbox).map Response.id ++
        ((l s.other).handled ++ (requests (l s.other).inbox).map Prod.fst)) := by
  have hother : s.other.other = s := by cases s <;> rfl
  have hcalls : (callsOf s h).map Prod.fst =
      (requests (h.flatMap (Said.sentBy s))).map Prod.fst := by
    rw [callsOf, List.map_flatMap, requests, List.filterMap_flatMap, List.map_flatMap]
    refine List.flatMap_congr fun x _ => ?_
    rw [Said.calls, List.map_map]
    rfl
  have hasked := messages_in_order htrace s.other
  rw [hother] at hasked
  rw [hcalls, ← hasked, requests, List.filterMap_append, List.map_append]
  show (requests (h.flatMap (Said.takenBy s.other))).map Prod.fst ++ _ = _
  rw [← answers_in_order htrace s.other, ← messages_in_order htrace s, responses,
    List.filterMap_append, List.map_append, List.append_assoc, List.append_assoc]
  rfl

/-- The books of a party: its calls have numbers one after the other, and `pending_req` holds those
whose responses it has not taken. -/
structure Booked (s : Side) (h : List Said) (p : Peer σ) : Prop where
  numbered : ∃ first : Int,
    (callsOf s h).map (fun c => c.1.val) =
      (List.range (callsOf s h).length).map (fun i : Nat => (first + i).bmod (2 ^ 32)) ∧
    increment p.nextId = (first + (callsOf s h).length).bmod (2 ^ 32)
  known : ∀ c ∈ callsOf s h, c.2 ≠ none
  pending : ∀ id f, p.pendingReq id = some f ↔
    ∃ c ∈ (callsOf s h).drop (gotBy s h).length, c.1.val = id ∧ c.2 = some f
  resumed : h.flatMap (Said.resumes s) = ((callsOf s h).map Prod.snd).zip (gotBy s h)

namespace Booked

variable {s : Side} {h : List Said} {p p' : Peer σ}

theorem start (hpending : ∀ id, p.pendingReq id = none) : Booked s [] p where
  numbered := by
    refine ⟨p.nextId + 1, rfl, ?_⟩
    show increment p.nextId = (p.nextId + 1 + 0).bmod (2 ^ 32)
    rw [Int.add_zero, increment]
  known := List.forall_mem_nil _
  pending id f := by
    rw [hpending]
    refine iff_of_false (Option.some_ne_none f).symm ?_
    rintro ⟨c, hc, -⟩
    exact List.not_mem_nil hc
  resumed := rfl

/-- The numbers of fewer calls than there are ids are different. -/
theorem nodup (hbooked : Booked s h p) (hfew : (callsOf s h).length ≤ 2 ^ 32) :
    ((callsOf s h).map fun c => c.1.val).Nodup := by
  obtain ⟨first, hids, -⟩ := hbooked.numbered
  rw [hids]
  refine List.Nodup.map_on ?_ List.nodup_range
  intro i hi j hj heq
  have hi' := List.mem_range.mp hi
  have hj' := List.mem_range.mp hj
  rcases lt_trichotomy i j with hlt | rfl | hlt
  · exact absurd heq.symm (bmod_ne hlt (by omega))
  · rfl
  · exact absurd heq (bmod_ne hlt (by omega))

/-- The next number is that of no call. -/
theorem fresh (hbooked : Booked s h p) (hfew : (callsOf s h).length < 2 ^ 32) :
    ∀ c ∈ callsOf s h, c.1.val ≠ increment p.nextId := by
  obtain ⟨first, hids, hnext⟩ := hbooked.numbered
  intro c hc heq
  have hmem : c.1.val ∈ (callsOf s h).map fun c => c.1.val := List.mem_map_of_mem hc
  rw [hids] at hmem
  obtain ⟨i, hi, hci⟩ := List.mem_map.mp hmem
  exact bmod_ne (List.mem_range.mp hi) hfew (hnext.symm.trans (heq.symm.trans hci.symm))

/-- A step that neither calls nor takes a response. -/
theorem keep (hbooked : Booked s h p) {x : Said} (hcalls : x.calls s = [])
    (hgot : responses (x.takenBy s) = []) (hnext : p'.nextId = p.nextId)
    (hpending : p'.pendingReq = p.pendingReq) : Booked s (h ++ [x]) p' := by
  have hcalls' : callsOf s (h ++ [x]) = callsOf s h := by
    rw [callsOf, List.flatMap_append, List.flatMap_singleton, hcalls, List.append_nil]
    rfl
  have hgot' : gotBy s (h ++ [x]) = gotBy s h := by
    rw [gotBy, List.flatMap_append, List.flatMap_singleton, responses, List.filterMap_append]
    show _ ++ responses (x.takenBy s) = _
    rw [hgot, List.append_nil]
    rfl
  have hresumes : (h ++ [x]).flatMap (Said.resumes s) = h.flatMap (Said.resumes s) := by
    rw [List.flatMap_append, List.flatMap_singleton, Said.resumes, hgot]
    exact List.append_nil _
  refine ⟨?_, ?_, ?_, ?_⟩
  · rw [hcalls', hnext]
    exact hbooked.numbered
  · rw [hcalls']
    exact hbooked.known
  · rw [hcalls', hgot', hpending]
    exact hbooked.pending
  · rw [hresumes, hcalls', hgot']
    exact hbooked.resumed

/-- A call takes the next number. -/
theorem invoke (hbooked : Booked s h p) (hfew : (callsOf s h).length < 2 ^ 32)
    (hle : (gotBy s h).length ≤ (callsOf s h).length) {f : Fiber} {x : Said}
    (hcalls : x.calls s = [(p.requestId, some f)]) (htaken : x.takenBy s = [])
    (hnext : p'.nextId = p.requestId)
    (hpending : p'.pendingReq = Function.update p.pendingReq p.requestId (some f)) :
    Booked s (h ++ [x]) p' := by
  have hcalls' : callsOf s (h ++ [x]) = callsOf s h ++ [(p.requestId, some f)] := by
    rw [callsOf, List.flatMap_append, List.flatMap_singleton, hcalls]
    rfl
  have hgot : gotBy s (h ++ [x]) = gotBy s h := by
    rw [gotBy, List.flatMap_append, List.flatMap_singleton, htaken, List.append_nil]
    rfl
  have hresumes : (h ++ [x]).flatMap (Said.resumes s) = h.flatMap (Said.resumes s) := by
    rw [List.flatMap_append, List.flatMap_singleton, Said.resumes, htaken]
    exact List.append_nil _
  obtain ⟨first, hids, hincrement⟩ := hbooked.numbered
  refine ⟨⟨first, ?_, ?_⟩, ?_, fun id g => ?_, ?_⟩
  · rw [hcalls', List.map_append, hids, List.length_append, List.length_singleton, List.range_succ,
      List.map_append, List.map_singleton, List.map_singleton, ← hincrement]
    rfl
  · rw [hcalls', hnext, List.length_append, List.length_singleton]
    show increment (increment p.nextId) = _
    rw [hincrement, increment, Int.bmod_add_bmod, Int.natCast_add, Int.add_assoc]
    rfl
  · rw [hcalls']
    intro c hc
    rcases List.mem_append.mp hc with hc | hc
    · exact hbooked.known c hc
    · rw [List.mem_singleton.mp hc]
      exact Option.some_ne_none f
  · rw [hpending, hcalls', hgot, List.drop_append_of_le_length hle]
    by_cases hid : id = p.requestId
    · subst hid
      rw [Function.update_self]
      constructor
      · intro hg
        exact ⟨_, List.mem_append_right _ (List.mem_singleton_self _), rfl, hg⟩
      · rintro ⟨c, hc, heq, hg⟩
        rcases List.mem_append.mp hc with hc | hc
        · exact absurd heq (hbooked.fresh hfew c (List.mem_of_mem_drop hc))
        · rw [List.mem_singleton.mp hc] at hg
          exact hg
    · rw [Function.update_of_ne hid, hbooked.pending id g]
      constructor
      · rintro ⟨c, hc, hcid⟩
        exact ⟨c, List.mem_append_left _ hc, hcid⟩
      · rintro ⟨c, hc, heq, hg⟩
        rcases List.mem_append.mp hc with hc | hc
        · exact ⟨c, hc, heq, hg⟩
        · rw [List.mem_singleton.mp hc] at heq
          exact absurd heq.symm hid
  · rw [hresumes, hbooked.resumed, hcalls', hgot, List.map_append]
    exact (zip_append_of_le (by rwa [List.length_map]) _).symm

/-- The response to the first call that waits finds it. -/
theorem found (hbooked : Booked s h p) {c : Id × Option Fiber} {rest : List (Id × Option Fiber)}
    (hfirst : (callsOf s h).drop (gotBy s h).length = c :: rest) : p.pendingReq c.1 = c.2 := by
  have hc : c ∈ (callsOf s h).drop (gotBy s h).length := by
    rw [hfirst]
    exact List.mem_cons_self
  cases hf : c.2 with
  | none => exact absurd hf (hbooked.known c (List.mem_of_mem_drop hc))
  | some f => exact (hbooked.pending c.1 f).mpr ⟨c, hc, rfl, hf⟩

/-- It takes the call off the books. -/
theorem resume (hbooked : Booked s h p) (hfew : (callsOf s h).length ≤ 2 ^ 32)
    {c : Id × Option Fiber} {rest : List (Id × Option Fiber)} {r : Response}
    (hfirst : (callsOf s h).drop (gotBy s h).length = c :: rest) (hid : c.1 = r.id) {x : Said}
    (hcalls : x.calls s = []) (htaken : x.takenBy s = [.response r]) (hfiber : x.fiber = c.2)
    (hnext : p'.nextId = p.nextId)
    (hpending : p'.pendingReq = Function.update p.pendingReq r.id none) :
    Booked s (h ++ [x]) p' := by
  have hcalls' : callsOf s (h ++ [x]) = callsOf s h := by
    rw [callsOf, List.flatMap_append, List.flatMap_singleton, hcalls, List.append_nil]
    rfl
  have hgot : gotBy s (h ++ [x]) = gotBy s h ++ [r] := by
    rw [gotBy, List.flatMap_append, List.flatMap_singleton, htaken, responses,
      List.filterMap_append]
    rfl
  have hresumes : (h ++ [x]).flatMap (Said.resumes s) =
      h.flatMap (Said.resumes s) ++ [(c.2, r)] := by
    rw [List.flatMap_append, List.flatMap_singleton, Said.resumes, htaken, ← hfiber]
    rfl
  have hrest : (callsOf s h).drop ((gotBy s h).length + 1) = rest := by
    rw [← List.drop_drop, hfirst]
    rfl
  -- no later call has the id
  have hlater : ∀ c' ∈ rest, c'.1.val ≠ r.id := by
    intro c' hc' heq
    have hsub := (List.drop_sublist (gotBy s h).length (callsOf s h)).map fun c => c.1.val
    have hnodup := (hbooked.nodup hfew).sublist hsub
    rw [hfirst, List.map_cons, List.nodup_cons, hid, ← heq] at hnodup
    exact hnodup.1 (List.mem_map_of_mem (f := fun c : Id × Option Fiber => c.1.val) hc')
  refine ⟨?_, ?_, fun id g => ?_, ?_⟩
  · rw [hcalls', hnext]
    exact hbooked.numbered
  · rw [hcalls']
    exact hbooked.known
  · rw [hpending, hcalls', hgot, List.length_append, List.length_singleton, hrest]
    by_cases hrid : id = r.id
    · subst hrid
      rw [Function.update_self]
      refine iff_of_false (Option.some_ne_none g).symm ?_
      rintro ⟨c', hc', heq, -⟩
      exact hlater c' hc' heq
    · rw [Function.update_of_ne hrid, hbooked.pending id g, hfirst]
      constructor
      · rintro ⟨c', hc', heq, hg⟩
        rcases List.mem_cons.mp hc' with rfl | hc'
        · exact absurd (heq.symm.trans (congrArg Subtype.val hid)) hrid
        · exact ⟨c', hc', heq, hg⟩
      · rintro ⟨c', hc', hcid⟩
        exact ⟨c', List.mem_cons_of_mem _ hc', hcid⟩
  · have hfirst' : ((callsOf s h).map Prod.snd).drop (gotBy s h).length =
        c.2 :: rest.map Prod.snd := by
      rw [← List.map_drop, hfirst, List.map_cons]
    rw [hresumes, hbooked.resumed, hcalls', hgot, zip_concat hfirst']

end Booked

/-- The first call whose response has not been taken is that of the first response on its way. -/
theorem first_in_turn {h : List Said} {l : Link σ} (htrace : Trace links Caught Link.said h l)
    {s : Side} {r : Response} {inbox : List Message} (hinbox : (l s).inbox = .response r :: inbox) :
    ∃ c rest, (callsOf s h).drop (gotBy s h).length = c :: rest ∧ c.1 = r.id := by
  have hturn := congrArg (List.drop (gotBy s h).length) (calls_in_turn htrace s)
  rw [hinbox, ← List.map_drop, List.drop_left' (List.length_map _)] at hturn
  cases hdrop : (callsOf s h).drop (gotBy s h).length with
  | nil =>
      rw [hdrop] at hturn
      cases hturn
  | cons c rest =>
      rw [hdrop] at hturn
      exact ⟨c, rest, rfl, (List.cons.inj hturn).1⟩

/-- Every step keeps the books of the party that takes it. -/
theorem booked_acted {h : List Said} {l : Link σ} (htrace : Trace links Caught Link.said h l)
    {s : Side} (hbooked : Booked s h (l s)) {a : Action} {p : Peer σ} {sent : Option Message}
    (hacted : Acted (l s) a p sent)
    (hfew : (callsOf s (h ++ [⟨s, (l s).fiber a, (l s).taken a, sent⟩])).length ≤ 2 ^ 32) :
    Booked s (h ++ [⟨s, (l s).fiber a, (l s).taken a, sent⟩]) p := by
  have hmore : callsOf s (h ++ [⟨s, (l s).fiber a, (l s).taken a, sent⟩]) =
      callsOf s h ++ (requests sent.toList).map fun request => (request.1, (l s).fiber a) := by
    rw [callsOf, List.flatMap_append, List.flatMap_singleton, Said.calls, Said.sentBy, if_pos rfl]
    rfl
  have hcalls : (⟨s, (l s).fiber a, (l s).taken a, sent⟩ : Said).calls s =
      (requests sent.toList).map fun request => (request.1, (l s).fiber a) := by
    rw [Said.calls, Said.sentBy, if_pos rfl]
  have htaken : (⟨s, (l s).fiber a, (l s).taken a, sent⟩ : Said).takenBy s =
      ((l s).taken a).toList := if_pos rfl
  rw [hmore, List.length_append] at hfew
  have hold : (callsOf s h).length ≤ 2 ^ 32 := (Nat.le_add_right _ _).trans hfew
  cases hacted with
  | invoked f method params next hf =>
      have hle : (gotBy s h).length ≤ (callsOf s h).length := by
        have hlength := congrArg List.length (calls_in_turn htrace s)
        rw [List.length_append, List.length_map, List.length_map] at hlength
        omega
      exact hbooked.invoke hfew hle hcalls htaken (by simp) (by simp)
  | woke f response next hf =>
      exact hbooked.keep hcalls (congrArg responses htaken) (by simp) (by simp)
  | called id method params inbox handler hloop hinbox hmethod =>
      refine hbooked.keep hcalls ?_ rfl rfl
      rw [htaken, Peer.taken, hinbox]
      rfl
  | refused id method params inbox hloop hinbox hmethod =>
      refine hbooked.keep hcalls ?_ rfl rfl
      rw [htaken, Peer.taken, hinbox]
      rfl
  | resumed r f next inbox hloop hinbox hf hnext =>
      obtain ⟨c, rest, hfirst, hid⟩ := first_in_turn htrace hinbox
      have hfound := hbooked.found hfirst
      refine hbooked.resume hold hfirst hid hcalls ?_ ?_ (by simp) (by simp)
      · rw [htaken, Peer.taken, hinbox]
        rfl
      · show (l s).fiber .read = c.2
        rw [Peer.fiber, hinbox, ← hfound, hid]
  | ignored r inbox hloop hinbox hr =>
      obtain ⟨c, rest, hfirst, hid⟩ := first_in_turn htrace hinbox
      have hfound := hbooked.found hfirst
      rw [hid, hr] at hfound
      have hc : c ∈ (callsOf s h).drop (gotBy s h).length := by
        rw [hfirst]
        exact List.mem_cons_self
      exact absurd hfound.symm (hbooked.known c (List.mem_of_mem_drop hc))
  | replied id rtn thrown r hloop hr =>
      exact hbooked.keep hcalls (congrArg responses htaken) rfl rfl
  | escaped id rtn hloop => exact hbooked.keep hcalls (congrArg responses htaken) rfl rfl

/-- The books of both parties in a run in which neither makes more calls than there are ids. -/
theorem booked_run {h : List Said} {l : Link σ} (htrace : Trace links Caught Link.said h l)
    (hcalls : ∀ s, (callsOf s h).length ≤ 2 ^ 32) (s : Side) : Booked s h (l s) := by
  induction htrace generalizing s with
  | start l hl => exact .start (hl s).2.2.1
  | step h l l' e htrace hcaught hstep ih =>
      obtain ⟨t, a⟩ := e
      obtain ⟨p, sent, hacted, rfl⟩ := links_step_iff.mp hstep
      rw [said_of_acted hacted, Option.toList_some] at hcalls ⊢
      have hbooked : ∀ s, Booked s h (l s) := by
        refine ih fun s => (?_ : _ ≤ _).trans (hcalls s)
        rw [callsOf, callsOf, List.flatMap_append, List.length_append]
        exact Nat.le_add_right _ _
      rcases Side.eq_or_other t s with rfl | rfl
      · rw [after_same]
        exact booked_acted htrace (hbooked _) hacted (hcalls _)
      · rw [after_other]
        refine (hbooked t.other).keep ?_ ?_ ?_ ?_
        · rw [Said.calls, Said.sentBy, if_neg (Side.other_ne t).symm]
          rfl
        · rw [Said.takenBy, if_neg (Side.other_ne t).symm]
          rfl
        · cases sent <;> rfl
        · cases sent <;> rfl

/-- The parties get each other's calls once and in order, they answer them in order, and the fibers
get the responses to their own calls, one after the other. -/
theorem calls_in_order {h : List Said} {l : Link σ} (htrace : Trace links Caught Link.said h l)
    (hcalls : ∀ s, (callsOf s h).length ≤ 2 ^ 32) (s : Side) :
    servedBy s.other h <+: askedBy s h ∧
      (answeredBy s.other h).map Response.id <+: (servedBy s.other h).map Prod.fst ∧
      (servedBy s.other h).length ≤ (answeredBy s.other h).length + 1 ∧
      h.flatMap (Said.resumes s) <+:
        ((callsOf s h).map Prod.snd).zip (answeredBy s.other h) := by
  have hother : s.other.other = s := by cases s <;> rfl
  have hasked := messages_in_order htrace s.other
  have hanswered : (answeredBy s.other h).map Response.id ++ (l s.other).handled =
      (servedBy s.other h).map Prod.fst := answers_in_order htrace s.other
  have hgot := messages_in_order htrace s
  rw [hother] at hasked
  refine ⟨⟨requests (l s.other).inbox, ?_⟩, ⟨_, hanswered⟩, ?_, ?_⟩
  · rw [askedBy, ← hasked, requests, List.filterMap_append]
    rfl
  · have hlength := congrArg List.length hanswered
    rw [List.length_append, List.length_map, List.length_map] at hlength
    have hone : (l s.other).handled.length ≤ 1 := by
      unfold Peer.handled
      split
      · exact Nat.le_refl 1
      · exact Nat.zero_le 1
    omega
  · rw [(booked_run htrace hcalls s).resumed]
    refine zip_prefix _ ⟨responses (l s).inbox, ?_⟩
    rw [answeredBy, ← hgot, responses, List.filterMap_append]
    rfl

/-- The client of the calculator calls `add`, and is given the response of the server. -/
theorem add_in_order :
    ∃ h : List Said, (callsOf .left h).map Prod.snd = [some (.caller 0)] ∧
      (h.flatMap (Said.resumes .left)).map Prod.fst = [some (.caller 0)] ∧
      h.flatMap (Said.resumes .left) <+:
        ((callsOf .left h).map Prod.snd).zip (answeredBy .right h) := by
  have start : Trace links Caught Link.said [] (calculators (str "add")) :=
    .start _ (calculators_start _)
  have called := Trace.step _ _ _ (Side.left, Action.invoke (.caller 0)) start nofun rfl
  have received := Trace.step _ _ _ (Side.right, Action.read) called nofun rfl
  have replied := Trace.step _ _ _ (Side.right, Action.reply) received
    (fun _ _ _ hloop => nomatch hloop) rfl
  have resumed := Trace.step _ _ _ (Side.left, Action.read) replied nofun rfl
  obtain ⟨h, l, htrace, hcalled, hresumed, hfew⟩ : ∃ (h : List Said) (l : Link Int),
      Trace links Caught Link.said h l ∧
      (callsOf .left h).map Prod.snd = [some (.caller 0)] ∧
      (h.flatMap (Said.resumes .left)).map Prod.fst = [some (.caller 0)] ∧
      ∀ s, (callsOf s h).length ≤ 2 ^ 32 := by
    refine ⟨_, _, resumed, rfl, rfl, fun s => ?_⟩
    cases s with
    | left => exact (show 1 ≤ 2 ^ 32 by decide)
    | right => exact Nat.zero_le _
  exact ⟨h, hcalled, hresumed, (calls_in_order htrace hfew .left).2.2.2⟩

/-! ## Handlers that return -/

/-- The methods of the party return without a call of their own, or throw what `on_receive`
catches. -/
def Peer.Returning (p : Peer σ) : Prop :=
  ∀ method handler, p.methods method = some handler → ∀ params world, ∃ rtn thrown,
    (handler params world).2 = .finished rtn thrown ∧ thrown ≠ some .foreign

/-- The read loop is in front of a message, or at the end of such a handler. -/
def Peer.Ready (p : Peer σ) : Prop :=
  p.loop = .reading ∨ ∃ id rtn thrown,
    p.loop = .handling id (.running (.finished rtn thrown)) ∧ thrown ≠ some .foreign

/-- Every fiber that waits has an entry in `pending_req`. -/
def Peer.Waits (p : Peer σ) : Prop :=
  ∀ f next, p.activity f = some (.waiting next) → ∃ id, p.pendingReq id = some f

section Acted

variable {p p' : Peer σ} {a : Action} {sent : Option Message}

/-- The methods stay. -/
theorem methods_of_acted (h : Acted p a p' sent) : p'.methods = p.methods := by
  cases h with
  | invoked | woke | resumed => exact Peer.set_activity_methods _ _ _
  | called | refused | ignored | replied | escaped => rfl

/-- The fiber in `read_loop` does not call, wait or wake. -/
theorem Peer.Ready.activity (h : p.Ready) {activity : Activity σ}
    (hactivity : p.activity .readLoop = some activity) :
    ∃ rtn thrown, activity = .running (.finished rtn thrown) := by
  obtain hloop | ⟨id, rtn, thrown, hloop, -⟩ := h
  · simp only [Peer.activity, hloop] at hactivity
    cases hactivity
  · simp only [Peer.activity, hloop] at hactivity
    cases hactivity
    exact ⟨rtn, thrown, rfl⟩

theorem ready_acted (h : p.Ready) (hreturning : p.Returning) (hacted : Acted p a p' sent) :
    p'.Ready := by
  cases hacted with
  | invoked f method params next hf =>
      have hcaller : f ≠ .readLoop := by
        rintro rfl
        obtain ⟨rtn, thrown, heq⟩ := h.activity hf
        cases heq
      rw [Peer.Ready, Peer.set_activity_loop _ hcaller]
      exact h
  | woke f response next hf =>
      have hcaller : f ≠ .readLoop := by
        rintro rfl
        obtain ⟨rtn, thrown, heq⟩ := h.activity hf
        cases heq
      rw [Peer.Ready, Peer.set_activity_loop _ hcaller]
      exact h
  | called id method params inbox handler hloop hinbox hmethod =>
      obtain ⟨rtn, thrown, hrtn, hthrown⟩ := hreturning method handler hmethod params p.world
      exact .inr ⟨id, rtn, thrown, by rw [hrtn], hthrown⟩
  | refused id method params inbox hloop hinbox hmethod => exact .inl hloop
  | resumed r f next inbox hloop hinbox hf hnext =>
      have hcaller : f ≠ .readLoop := by
        rintro rfl
        obtain ⟨rtn, thrown, heq⟩ := h.activity hnext
        cases heq
      rw [Peer.Ready, Peer.set_activity_loop _ hcaller]
      exact .inl hloop
  | ignored r inbox hloop hinbox hr => exact .inl hloop
  | replied id rtn thrown r hloop hr => exact .inl rfl
  | escaped id rtn hloop =>
      obtain hreading | ⟨id', rtn', thrown, hhandling, hthrown⟩ := h
      · cases hloop.symm.trans hreading
      · cases hloop.symm.trans hhandling
        exact absurd rfl hthrown

theorem waits_acted (h : p.Waits)
    (hfresh : ∀ f, a = .invoke f → p.pendingReq p.requestId = none)
    (hacted : Acted p a p' sent) : p'.Waits := by
  cases hacted with
  | invoked f method params next hf =>
      intro g next' hg
      rw [Peer.set_activity_pending]
      by_cases hgf : g = f
      · exact ⟨p.requestId, hgf ▸ Function.update_self _ _ _⟩
      · rw [Peer.set_activity_other _ hgf] at hg
        obtain ⟨id, hid⟩ := h g next' hg
        refine ⟨id, (Function.update_of_ne ?_ _ _).trans hid⟩
        rintro rfl
        cases (hfresh f rfl).symm.trans hid
  | woke f response next hf =>
      intro g next' hg
      rw [Peer.set_activity_pending]
      by_cases hgf : g = f
      · subst hgf
        have hwoken : ({ p with world := (next response p.world).1 } : Peer σ).activity g =
            some (.woken response next) := by
          cases g <;> exact hf
        cases (Peer.set_activity_same _ hwoken).symm.trans hg
      · rw [Peer.set_activity_other _ hgf] at hg
        exact h g next' hg
  | called id method params inbox handler hloop hinbox hmethod =>
      intro g next' hg
      cases g with
      | readLoop => cases hg
      | caller n => exact h (.caller n) next' hg
  | refused id method params inbox hloop hinbox hmethod =>
      intro g next' hg
      refine h g next' ?_
      cases g <;> exact hg
  | resumed r f next inbox hloop hinbox hf hnext =>
      intro g next' hg
      rw [Peer.set_activity_pending]
      by_cases hgf : g = f
      · subst hgf
        have hwaiting : ({ p with
            inbox, pendingReq := Function.update p.pendingReq r.id none } : Peer σ).activity g =
              some (.waiting next) := by
          cases g <;> exact hnext
        cases (Peer.set_activity_same _ hwaiting).symm.trans hg
      · rw [Peer.set_activity_other _ hgf] at hg
        obtain ⟨id, hid⟩ := h g next' (by cases g <;> exact hg)
        refine ⟨id, (Function.update_of_ne ?_ _ _).trans hid⟩
        rintro rfl
        exact hgf (Option.some.inj (hid.symm.trans hf))
  | ignored r inbox hloop hinbox hr =>
      intro g next' hg
      refine h g next' ?_
      cases g <;> exact hg
  | replied id rtn thrown r hloop hr =>
      intro g next' hg
      cases g with
      | readLoop => cases hg
      | caller n => exact h (.caller n) next' hg
  | escaped id rtn hloop =>
      intro g next' hg
      cases g with
      | readLoop => cases hg
      | caller n => exact h (.caller n) next' hg

/-- A message that arrives. -/
theorem waits_deliver (h : p.Waits) (sent : Option Message) : (p.deliver sent).Waits := by
  cases sent with
  | none => exact h
  | some msg =>
      intro f next hf
      refine h f next ?_
      cases f <;> exact hf

end Acted

section Runs

variable {h : List Said} {l l' : Link σ}

/-- What is said before is said behind a step as well. -/
theorem calls_le (s : Side) (h h' : List Said) :
    (callsOf s h).length ≤ (callsOf s (h ++ h')).length := by
  rw [callsOf, callsOf, List.flatMap_append, List.length_append]
  exact Nat.le_add_right _ _

/-- Where the handlers return, the read loops are ready, and nothing goes past `on_receive`. -/
theorem returning_run (htrace : Trace links (fun _ _ => True) Link.said h l)
    (hreturning : ∀ s, (l s).Returning) :
    Trace links Caught Link.said h l ∧ ∀ s, (l s).Ready := by
  induction htrace with
  | start l hl => exact ⟨.start l hl, fun s => .inl (hl s).1⟩
  | step h l l' e htrace _ hstep ih =>
      obtain ⟨t, a⟩ := e
      obtain ⟨p, sent, hacted, rfl⟩ := links_step_iff.mp hstep
      -- the methods were the same
      have hbefore : ∀ s, (l s).Returning := by
        intro s
        have hs := hreturning s
        rcases Side.eq_or_other t s with rfl | rfl
        · rw [after_same, Peer.Returning, methods_of_acted hacted] at hs
          exact hs
        · rw [after_other] at hs
          cases sent <;> exact hs
      obtain ⟨hcaught, hready⟩ := ih hbefore
      refine ⟨.step h l _ (t, a) hcaught ?_ hstep, ?_⟩
      · rintro - id rtn hloop
        obtain hreading | ⟨id', rtn', thrown, hhandling, hthrown⟩ := hready t
        · cases hloop.symm.trans hreading
        · cases hloop.symm.trans hhandling
          exact hthrown rfl
      · refine forall_after (P := Peer.Ready) hready (ready_acted (hready t) (hbefore t) hacted) ?_
        intro q hq
        cases sent <;> exact hq

/-- The next id is that of no call that waits. -/
theorem Booked.unused {s : Side} {p : Peer σ} (hbooked : Booked s h p)
    (hfew : (callsOf s h).length < 2 ^ 32) : p.pendingReq p.requestId = none := by
  cases hf : p.pendingReq p.requestId with
  | none => rfl
  | some f =>
      obtain ⟨c, hc, hid, -⟩ := (hbooked.pending _ f).mp hf
      exact absurd hid (hbooked.fresh hfew c (List.mem_of_mem_drop hc))

/-- Every fiber that waits has an entry in `pending_req`. -/
theorem waits_run (htrace : Trace links Caught Link.said h l)
    (hcalls : ∀ s, (callsOf s h).length ≤ 2 ^ 32) (s : Side) : (l s).Waits := by
  induction htrace generalizing s with
  | start l hl =>
      intro f next hf
      obtain ⟨hloop, -, -, hcallers⟩ := hl s
      cases f with
      | readLoop =>
          simp only [Peer.activity, hloop] at hf
          cases hf
      | caller n =>
          obtain ⟨routine, hroutine⟩ := hcallers n
          cases (congrArg some hroutine).symm.trans hf
  | step h l l' e htrace hcaught hstep ih =>
      obtain ⟨t, a⟩ := e
      obtain ⟨p, sent, hacted, rfl⟩ := links_step_iff.mp hstep
      have hbefore : ∀ s, (callsOf s h).length ≤ 2 ^ 32 :=
        fun s => (calls_le s h _).trans (hcalls s)
      have hwaits := ih hbefore
      refine forall_after hwaits (waits_acted (hwaits t) ?_ hacted)
        (fun q hq => waits_deliver hq sent) s
      rintro f rfl
      refine (booked_run htrace hbefore t).unused ?_
      have hmany := hcalls t
      rw [said_of_acted hacted, callsOf, List.flatMap_append, List.length_append] at hmany
      cases hacted with
      | invoked f method params next hf =>
          rw [Option.toList_some, List.flatMap_singleton, Said.calls, Said.sentBy,
            if_pos rfl] at hmany
          exact hmany

/-- The entries of `pending_req` are those of waiting fibers. -/
theorem sound_trace (htrace : Trace links Caught Link.said h l) (s : Side) : (l s).Sound := by
  refine htrace.invariant (P := fun l => ∀ s, (l s).Sound) ?_ ?_ s
  · intro l hl s
    obtain ⟨-, -, hpending, -⟩ := hl s
    refine ⟨fun id f hf => ?_, fun id id' f hf _ => ?_⟩
    · cases (hpending id).symm.trans hf
    · cases (hpending id).symm.trans hf
  · intro l e l' hl _ hstep
    obtain ⟨t, a⟩ := e
    obtain ⟨p, sent, hacted, rfl⟩ := links_step_iff.mp hstep
    exact forall_after hl (sound_acted (hl t) hacted) fun q hq => sound_deliver hq sent

end Runs

/-! ## The work of the read loops -/

/-- How many steps of the read loops a message takes at most. -/
def Message.work : Message → Nat
  | .request _ _ _ => 3
  | .response _ => 1

/-- How many steps are in front of the party. -/
def Peer.work (p : Peer σ) : Nat := (p.inbox.map Message.work).sum + 2 * p.handled.length

/-- How many steps the read loops can take at most before a fiber calls. -/
def Link.work (l : Link σ) : Nat := (l .left).work + (l .right).work

/-- A step of a read loop. -/
def Action.OfLoop (a : Action) : Prop := a = .read ∨ a = .reply

section Work

variable {p p' : Peer σ} {a : Action} {sent : Option Message}

/-- A step of a read loop does some of the work, and makes no call. -/
theorem work_of_acted (hacted : Acted p a p' sent) (hloop : a.OfLoop) :
    p'.work + (sent.toList.map Message.work).sum < p.work ∧ requests sent.toList = [] := by
  cases hacted with
  | invoked | woke => rcases hloop with h | h <;> cases h
  | called id method params inbox handler hreading hinbox hmethod =>
      simp [Peer.work, Peer.handled, hreading, hinbox, Message.work, requests]
      omega
  | refused id method params inbox hreading hinbox hmethod =>
      simp [Peer.work, Peer.handled, hreading, hinbox, Message.work, requests]
      omega
  | resumed r f next inbox hreading hinbox hf hnext =>
      rw [Peer.work, set_activity_handled, Peer.set_activity_inbox]
      simp [Peer.work, Peer.handled, hreading, hinbox, Message.work, requests]
  | ignored r inbox hreading hinbox hr =>
      simp [Peer.work, Peer.handled, hreading, hinbox, Message.work, requests]
  | replied id rtn thrown r hhandling hr =>
      simp [Peer.work, Peer.handled, hhandling, Message.work, requests]
  | escaped id rtn hhandling =>
      simp [Peer.work, Peer.handled, hhandling, requests]

/-- A message that arrives brings its work. -/
theorem work_deliver (p : Peer σ) (sent : Option Message) :
    (p.deliver sent).work = p.work + (sent.toList.map Message.work).sum := by
  cases sent with
  | none => rfl
  | some msg =>
      rw [Peer.work, deliver_handled, Peer.work, Peer.deliver, List.map_append, List.sum_append]
      simp only [Option.toList_some]
      omega

/-- The work of two parties behind a step of one of them. -/
theorem work_after (l : Link σ) (s : Side) (p : Peer σ) (sent : Option Message) :
    (l.after s p sent).work + (l s).work =
      l.work + p.work + (sent.toList.map Message.work).sum := by
  have hsame := after_same l s p sent
  have hother := after_other l s p sent
  have hdeliver := work_deliver (l s.other) sent
  cases s with
  | left =>
      rw [Link.work, hsame, show Side.right = Side.left.other from rfl, hother, hdeliver, Link.work]
      show _ = (l .left).work + (l .right).work + _ + _
      show _ + ((l .right).work + _) + _ = _
      omega
  | right =>
      rw [Link.work, hsame, show Side.left = Side.right.other from rfl, hother, hdeliver, Link.work]
      show ((l .left).work + _) + _ + _ = (l .left).work + (l .right).work + _ + _
      omega

/-- A party that is ready has something to do unless it waits for a message. -/
theorem idle_of_stuck (hsound : p.Sound) (hready : p.Ready)
    (hstuck : ∀ a p' sent, a.OfLoop → ¬ Acted p a p' sent) : p.loop = .reading ∧ p.inbox = [] := by
  obtain hreading | ⟨id, rtn, thrown, hhandling, hthrown⟩ := hready
  · refine ⟨hreading, ?_⟩
    by_contra hinbox
    obtain ⟨msg, inbox, hin⟩ := List.exists_cons_of_ne_nil hinbox
    cases msg with
    | request id method params =>
        cases hmethod : p.methods method with
        | some handler =>
            exact hstuck _ _ _ (.inl rfl)
              (.called id method params inbox handler hreading hin hmethod)
        | none =>
            exact hstuck _ _ _ (.inl rfl) (.refused id method params inbox hreading hin hmethod)
    | response r =>
        cases hr : p.pendingReq r.id with
        | none => exact hstuck _ _ _ (.inl rfl) (.ignored r inbox hreading hin hr)
        | some f =>
            obtain ⟨next, hnext⟩ := hsound.waiting _ f hr
            exact hstuck _ _ _ (.inl rfl) (.resumed r f next inbox hreading hin hr hnext)
  · exfalso
    cases hr : (Response.returns id rtn).caught thrown with
    | some r => exact hstuck _ _ _ (.inr rfl) (.replied id rtn thrown r hhandling hr)
    | none => exact hthrown (caught_eq_none hr)

end Work

/-- Steps of the read loops go on with the conversation without a call, and each of them does some
of the work. -/
theorem loops_work {h : List Said} {l l' : Link σ} {es : List (Side × Action)}
    (htrace : Trace links (fun _ _ => True) Link.said h l) (hpath : Path links l es l')
    (hloops : ∀ e ∈ es, e.2.OfLoop) :
    ∃ h', Trace links (fun _ _ => True) Link.said h' l' ∧
      (∀ s, callsOf s h' = callsOf s h) ∧ (∀ s, (l' s).methods = (l s).methods) ∧
      es.length + l'.work ≤ l.work := by
  induction hpath generalizing h with
  | nil l => exact ⟨h, htrace, fun _ => rfl, fun _ => rfl, by rw [List.length_nil, Nat.zero_add]⟩
  | cons l m l' e es hstep _ ih =>
      obtain ⟨t, a⟩ := e
      have hnext := Trace.step h l m (t, a) htrace trivial hstep
      obtain ⟨p, sent, hacted, rfl⟩ := links_step_iff.mp hstep
      obtain ⟨hless, hnone⟩ := work_of_acted hacted (hloops _ List.mem_cons_self)
      obtain ⟨h', htrace', hcalls, hmethods, hwork⟩ :=
        ih hnext fun e he => hloops e (List.mem_cons_of_mem _ he)
      refine ⟨h', htrace', fun s => ?_, fun s => ?_, ?_⟩
      · rw [hcalls s, said_of_acted hacted, Option.toList_some, callsOf, callsOf,
          List.flatMap_append, List.flatMap_singleton, Said.calls, Said.sentBy]
        split
        · rw [hnone]
          exact List.append_nil _
        · exact List.append_nil _
      · rw [hmethods s]
        rcases Side.eq_or_other t s with rfl | rfl
        · rw [after_same]
          exact methods_of_acted hacted
        · rw [after_other]
          cases sent <;> rfl
      · have hafter := work_after l t p sent
        rw [List.length_cons]
        omega

/-- Where the handlers return, the read loops come to an end with the messages in every order in
which they are scheduled, and then no fiber waits. -/
theorem settles {h : List Said} {l l' : Link σ} {es : List (Side × Action)}
    (htrace : Trace links (fun _ _ => True) Link.said h l)
    (hcalls : ∀ s, (callsOf s h).length ≤ 2 ^ 32) (hreturning : ∀ s, (l s).Returning)
    (hpath : Path links l es l') (hloops : ∀ e ∈ es, e.2.OfLoop) :
    es.length ≤ l.work ∧
      ((∀ s a l'', a.OfLoop → links.step l' (s, a) ≠ .next l'') →
        ∀ s f next, (l' s).activity f ≠ some (.waiting next)) := by
  obtain ⟨h', htrace', hsame, hmethods, hwork⟩ := loops_work htrace hpath hloops
  refine ⟨by omega, fun hstuck s f next hf => ?_⟩
  have hcalls' : ∀ s, (callsOf s h').length ≤ 2 ^ 32 := by
    intro s
    rw [hsame]
    exact hcalls s
  have hreturning' : ∀ s, (l' s).Returning := by
    intro s
    rw [Peer.Returning, hmethods]
    exact hreturning s
  obtain ⟨hcaught, hready⟩ := returning_run htrace' hreturning'
  have hidle : ∀ s, (l' s).loop = .reading ∧ (l' s).inbox = [] := by
    intro s
    refine idle_of_stuck (sound_trace hcaught s) (hready s) fun a p sent ha hacted => ?_
    exact hstuck s a _ ha (links_step_iff.mpr ⟨p, sent, hacted, rfl⟩)
  -- all responses have been taken
  have hturn := congrArg List.length (calls_in_turn hcaught s)
  rw [(hidle s).2, (hidle s.other).2, Peer.handled, (hidle s.other).1] at hturn
  simp only [responses, requests, List.filterMap_nil, List.map_nil, List.append_nil,
    List.length_map] at hturn
  obtain ⟨id, hid⟩ := waits_run hcaught hcalls' s f next hf
  obtain ⟨c, hc, -⟩ := ((booked_run hcaught hcalls' s).pending id f).mp hid
  rw [← hturn, List.drop_length] at hc
  cases hc

/-- A client of the calculator and a server that can only add. -/
def adders : Link Int
  | .left => calculators (str "add") .left
  | .right =>
      { calculators (str "add") .right with
        methods := fun name => if name = str "add" then some add else none }

theorem adders_start : links.start adders := by
  intro s
  cases s with
  | left => exact calculators_start (str "add") .left
  | right => exact calculators_start (str "add") .right

theorem adders_returning (s : Side) : (adders s).Returning := by
  intro method handler hmethod params world
  cases s with
  | left =>
      by_cases hname : method = str "got_result"
      · obtain rfl := Option.some.inj ((if_pos hname).symm.trans hmethod)
        exact ⟨_, _, rfl, nofun⟩
      · cases (if_neg hname).symm.trans hmethod
  | right =>
      by_cases hname : method = str "add"
      · obtain rfl := Option.some.inj ((if_pos hname).symm.trans hmethod)
        exact ⟨_, _, rfl, nofun⟩
      · cases (if_neg hname).symm.trans hmethod

/-- A call of `add` takes three steps, and then the client has its result. -/
theorem add_settles :
    ∃ l l' : Link Int, (∃ next, (l .left).activity (.caller 0) = some (.waiting next)) ∧
      Path links l [(.right, .read), (.right, .reply), (.left, .read)] l' ∧ 3 ≤ l.work ∧
      ((∀ s a l'', a.OfLoop → links.step l' (s, a) ≠ .next l'') →
        ∀ s f next, (l' s).activity f ≠ some (.waiting next)) := by
  have start : Trace links (fun _ _ => True) Link.said [] adders := .start _ adders_start
  have called := Trace.step _ _ _ (Side.left, Action.invoke (.caller 0)) start trivial rfl
  obtain ⟨h, l, l', htrace, hfew, hreturning, hwaiting, hpath⟩ :
      ∃ (h : List Said) (l l' : Link Int),
      Trace links (fun _ _ => True) Link.said h l ∧ (∀ s, (callsOf s h).length ≤ 2 ^ 32) ∧
      (∀ s, (l s).Returning) ∧
      (∃ next, (l .left).activity (.caller 0) = some (.waiting next)) ∧
      Path links l [(.right, .read), (.right, .reply), (.left, .read)] l' := by
    refine ⟨_, _, _, called, fun s => ?_, fun s => ?_, ⟨_, rfl⟩,
      .cons _ _ _ _ _ rfl (.cons _ _ _ _ _ rfl (.cons _ _ _ _ _ rfl (.nil _)))⟩
    · cases s with
      | left => exact (show 1 ≤ 2 ^ 32 by decide)
      | right => exact Nat.zero_le _
    · cases s with
      | left => exact adders_returning .left
      | right => exact adders_returning .right
  have hloops : ∀ e ∈ [(Side.right, Action.read), (.right, .reply), (.left, .read)],
      e.2.OfLoop := by
    intro e he
    rcases List.mem_cons.mp he with rfl | he
    · exact .inl rfl
    rcases List.mem_cons.mp he with rfl | he
    · exact .inr rfl
    · rw [List.mem_singleton.mp he]
      exact .inl rfl
  exact ⟨l, l', hwaiting, hpath, settles htrace hfew hreturning hpath hloops⟩

end BoostRpc.Json
