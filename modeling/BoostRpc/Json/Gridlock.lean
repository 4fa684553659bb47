import BoostRpc.Json.Broadcast
import BoostRpc.Waiting
import Mathlib.Algebra.BigOperators.Fin

/-!
# Sessions that lock each other up

An emission of a client is delivered inside of the `read_loop` of its session, and waits there for
the responses of the other clients, which the `read_loop`s of their sessions have to take. Two
clients that emit different signals at the same time can lock up each other's sessions for ever.

`broadcasts_settle` says that this is all that can keep the sessions from coming to an end with the
messages and the emissions. `one_signal_settles` says that it does not happen where the object has
one signal: a session that delivers an emission has blocked its slot for this signal, so nobody
begins to wait for it.
-/

namespace BoostRpc.Json

open Lts Waiting

variable {ι φ π : Type} [DecidableEq ι] [DecidableEq φ]

/-! ## Who waits for whom -/

/-- An event that takes a message or goes on with an emission. -/
def HubEvent.OfLoops : HubEvent ι φ π → Prop
  | .clientRead _ | .serverRead _ | .slot _ _ | .finish _ _ => True
  | .report _ _ _ | .invoke _ _ _ | .emit _ _ _ => False

/-- No slot throws past `on_receive`. -/
def Hub.Caught (_ : Hub ι φ π) (ev : HubEvent ι φ π) : Prop :=
  ∀ e, ev ≠ .finish e (some .foreign)

/-- The read loop of the session `i` waits for the response of the client of `j`. -/
def Hub.Waits (s : Hub ι φ π) (i j : ι) : Prop :=
  ∃ em, s.emission (.loop i) = some em ∧ em.waiting = some j

/-- The session that an emission waits for. -/
def Hub.waiting (s : Hub ι φ π) (e : Emitter ι φ) : Option ι :=
  (s.emission e).bind Emission.waiting

/-- How many requests for this emission are on their way to a client. -/
def asked (e : Emitter ι φ) : List (FromServer ι φ π) → Nat :=
  List.countP fun
    | .emission e' _ _ => e' = e
    | .response => false

/-- How many responses for this emission are on their way from a client. -/
def answered (e : Emitter ι φ) : List (FromClient ι φ π) → Nat :=
  List.countP fun
    | .response e' => e' = e
    | _ => false

/-- An emission that waits for a client has its request or its response on the way, and no other
messages are on their way for it. No session waits for its own client. -/
structure Hub.Sound (s : Hub ι φ π) : Prop where
  outstanding : ∀ e i, asked e (s.toClient i) + answered e (s.toServer i) =
    if s.waiting e = some i then 1 else 0
  apart : ∀ i, s.waiting (.loop i) ≠ some i

section Sound

variable {names : List Text} {h : List (Noticed ι φ π)} {s s' : Hub ι φ π}

omit [DecidableEq ι] [DecidableEq φ] in
theorem Hub.waits_iff {i j : ι} : s.Waits i j ↔ s.waiting (.loop i) = some j := by
  rw [Hub.waiting, Option.bind_eq_some_iff]
  rfl

omit [DecidableEq ι] [DecidableEq φ] in
theorem Hub.waiting_none {e : Emitter ι φ} {em : Emission ι π} (hem : s.emission e = some em)
    (hwaiting : em.waiting = none) : s.waiting e = none := by
  rw [Hub.waiting, hem, Option.bind_some, hwaiting]

/-- A session that delivers nothing waits for nobody. -/
theorem Follows.waiting_idle (hf : Follows names h s) {i : ι}
    (hidle : (s.session i).delivery = none) : s.waiting (.loop i) = none := by
  have hdelivery := hf.delivery i
  rw [Server.delivered, hidle] at hdelivery
  rw [Hub.waiting, Option.map_eq_none_iff.mp hdelivery.symm]
  rfl

/-- The emission of one fiber changes. -/
theorem Hub.waiting_set (s : Hub ι φ π) (e e' : Emitter ι φ) (em : Option (Emission ι π)) :
    (s.set e em).waiting e' = if e' = e then em.bind Emission.waiting else s.waiting e' := by
  rw [Hub.waiting, Hub.set]
  by_cases he : e' = e
  · rw [he, if_pos rfl]
    exact congrArg (Option.bind · Emission.waiting) (Function.update_self _ _ _)
  · rw [if_neg he]
    exact congrArg (Option.bind · Emission.waiting) (Function.update_of_ne he _ _)

theorem asked_append (e : Emitter ι φ) (msgs msgs' : List (FromServer ι φ π)) :
    asked e (msgs ++ msgs') = asked e msgs + asked e msgs' := List.countP_append

theorem answered_append (e : Emitter ι φ) (msgs msgs' : List (FromClient ι φ π)) :
    answered e (msgs ++ msgs') = answered e msgs + answered e msgs' := List.countP_append

/-- Messages of one client change, and none for an emission that waits. -/
theorem Hub.Sound.exchange (hs : s.Sound) (i : ι) (hwaiting : ∀ e, s'.waiting e = s.waiting e)
    (hothers : ∀ j, j ≠ i → s'.toClient j = s.toClient j ∧ s'.toServer j = s.toServer j)
    (hsame : ∀ e, asked e (s'.toClient i) + answered e (s'.toServer i) =
      asked e (s.toClient i) + answered e (s.toServer i)) : s'.Sound where
  outstanding e j := by
    rw [hwaiting]
    by_cases hj : j = i
    · rw [hj, hsame]
      exact hs.outstanding e i
    · rw [(hothers j hj).1, (hothers j hj).2]
      exact hs.outstanding e j
  apart j := by
    rw [hwaiting]
    exact hs.apart j

/-- An emission that does not wait begins, goes on or ends. -/
theorem Hub.waiting_same {e e' : Emitter ι φ} {em : Option (Emission ι π)}
    (hbefore : s.waiting e = none) (hbehind : em.bind Emission.waiting = none) :
    (s.set e em).waiting e' = s.waiting e' := by
  rw [Hub.waiting_set]
  split
  · rename_i he
    rw [he, hbefore, hbehind]
  · rfl

/-- No message is on its way for it before or behind. -/
theorem Hub.Sound.set_idle (hs : s.Sound) {e : Emitter ι φ} {em : Option (Emission ι π)}
    (hbefore : s.waiting e = none) (hbehind : em.bind Emission.waiting = none) :
    (s.set e em).Sound where
  outstanding e' i := by
    rw [Hub.waiting_same hbefore hbehind]
    exact hs.outstanding e' i
  apart i := by
    rw [Hub.waiting_same hbefore hbehind]
    exact hs.apart i

/-- The response that an emission waits for comes. -/
theorem Hub.Sound.responded (hs : s.Sound) {i : ι} {e : Emitter ι φ}
    {rest : List (FromClient ι φ π)} (hhead : s.toServer i = .response e :: rest) :
    ((s.take i rest).resume i e).Sound := by
  have hone : answered e (s.toServer i) = answered e rest + 1 := by
    rw [hhead, answered, List.countP_cons_of_pos (by simp)]
  have hnext := hs.outstanding e i
  -- it waits for this client
  have hwaiting : s.waiting e = some i := by
    by_contra hnot
    rw [if_neg hnot] at hnext
    omega
  rw [if_pos hwaiting] at hnext
  obtain ⟨em, hem, hi⟩ := Option.bind_eq_some_iff.mp hwaiting
  have hresumed : (s.take i rest).resume i e =
      (s.take i rest).set e (some { em with waiting := none }) := by
    simp only [Hub.resume, Hub.take, hem, if_pos hi]
  rw [hresumed]
  refine ⟨fun e' j => ?_, fun j => ?_⟩
  · rw [Hub.waiting_set]
    show asked e' (s.toClient j) + answered e' (Function.update s.toServer i rest j) = _
    have hold := hs.outstanding e' j
    by_cases he : e' = e
    · rw [he, if_pos rfl, Option.bind_some, if_neg (Option.some_ne_none j).symm]
      rw [he] at hold
      by_cases hj : j = i
      · rw [hj, Function.update_self]
        omega
      · rw [if_neg (by rw [hwaiting]; exact fun heq => hj (Option.some.inj heq).symm)] at hold
        rw [Function.update_of_ne hj]
        exact hold
    · rw [if_neg he]
      show _ = if s.waiting e' = some j then 1 else 0
      by_cases hj : j = i
      · rw [hj, Function.update_self]
        rw [hj, hhead, answered, List.countP_cons_of_neg (by simpa using Ne.symm he)] at hold
        exact hold
      · rw [Function.update_of_ne hj]
        exact hold
  · rw [Hub.waiting_set]
    split
    · exact (Option.some_ne_none _).symm
    · exact hs.apart j

/-- The slot of a session is called. -/
theorem Hub.Sound.reached (hs : s.Sound) (hf : Follows names h s) {e : Emitter ι φ}
    {em : Emission ι π} {i : ι} {server : Server} (hem : s.emission e = some em)
    (hwaiting : em.waiting = none)
    (hserver : (s.session i).step (if e = .loop i then .reach else .emit em.name) = .next server) :
    (s.called e em i server).Sound := by
  have hnone := Hub.waiting_none hem hwaiting
  have hsent := hf.sent hserver
  by_cases hcond : e ≠ .loop i ∧ countOf i em.name h ≠ 0 ∧
      (s.session i).delivered ≠ some em.name
  · rw [if_pos hcond] at hsent
    rw [Hub.called, hsent, if_neg (List.cons_ne_nil _ _)]
    refine ⟨fun e' j => ?_, fun j => ?_⟩
    · have hold := hs.outstanding e' j
      show asked e' (Function.update s.toClient i (s.toClient i ++ _) j) + _ =
        if ((s.put i server).set e _).waiting e' = some j then 1 else 0
      rw [Hub.waiting_set]
      show asked e' _ + answered e' (s.toServer j) = _
      by_cases he : e' = e
      · subst he
        rw [hnone, if_neg (Option.some_ne_none j).symm] at hold
        rw [if_pos rfl]
        show _ = if some i = some j then 1 else 0
        by_cases hj : j = i
        · subst hj
          rw [Function.update_self, asked_append, if_pos rfl]
          have hone : asked e' ([em.name].map fun name => FromServer.emission e' name em.fp) = 1 :=
            List.countP_singleton.trans (if_pos (by simp))
          omega
        · rw [Function.update_of_ne hj, if_neg fun heq => hj (Option.some.inj heq).symm]
          exact hold
      · rw [if_neg he]
        by_cases hj : j = i
        · rw [hj, Function.update_self, asked_append]
          rw [hj] at hold
          have hzero : asked e' ([em.name].map fun name => FromServer.emission e name em.fp) = 0 :=
            List.countP_singleton.trans (if_neg (by simpa using Ne.symm he))
          rw [hzero]
          exact hold
        · rw [Function.update_of_ne hj]
          exact hold
    · show ((s.put i server).set e _).waiting (.loop j) ≠ some j
      rw [Hub.waiting_set]
      split
      · rename_i hj
        rintro ⟨⟩
        exact hcond.1 hj.symm
      · exact hs.apart j
  · rw [if_neg hcond] at hsent
    rw [Hub.called, hsent, if_pos rfl]
    refine hs.exchange i (fun e' => ?_) (fun j hj => ?_) fun e' => ?_
    · exact Hub.waiting_same (s := s.put i server) hnone rfl
    · exact ⟨Function.update_of_ne hj _ _, rfl⟩
    · show asked e' (Function.update s.toClient i (s.toClient i ++ []) i) + _ = _
      rw [Function.update_self, List.append_nil]
      rfl

/-- Every step keeps the requests and responses. -/
theorem Hub.Sound.step [Fintype ι] {ev : HubEvent ι φ π} (hs : s.Sound) (hf : Follows names h s)
    (hstep : s.step ev = .next s') : s'.Sound := by
  cases happens_of_step hstep with
  | reported i sig count =>
      refine hs.exchange i (fun _ => rfl) (fun j hj => ⟨rfl, Function.update_of_ne hj _ _⟩)
        fun e => ?_
      show _ + answered e (Function.update s.toServer i _ i) = _
      rw [Function.update_self, answered_append]
      rfl
  | invoked i name fp =>
      refine hs.exchange i (fun _ => rfl) (fun j hj => ⟨rfl, Function.update_of_ne hj _ _⟩)
        fun e => ?_
      show _ + answered e (Function.update s.toServer i _ i) = _
      rw [Function.update_self, answered_append]
      rfl
  | arrived i e name fp rest hhead =>
      refine hs.exchange i (fun _ => rfl)
        (fun j hj => ⟨Function.update_of_ne hj _ _, Function.update_of_ne hj _ _⟩) fun e' => ?_
      show asked e' (Function.update s.toClient i rest i) +
        answered e' (Function.update s.toServer i (s.toServer i ++ _) i) = _
      rw [Function.update_self, Function.update_self, answered_append, hhead]
      by_cases he : e = e'
      · simp only [asked, answered, List.countP_cons, List.countP_nil, he, decide_true, if_true]
        omega
      · simp only [asked, answered, List.countP_cons, List.countP_nil, he, decide_false,
          Bool.false_eq_true, if_false]
        omega
  | answered i rest hhead =>
      refine hs.exchange i (fun _ => rfl) (fun j hj => ⟨Function.update_of_ne hj _ _, rfl⟩)
        fun e => ?_
      show asked e (Function.update s.toClient i rest i) + _ = _
      rw [Function.update_self, hhead]
      rfl
  | connected i sig count rest server hhead hserver =>
      refine hs.exchange i (fun _ => rfl)
        (fun j hj => ⟨Function.update_of_ne hj _ _, Function.update_of_ne hj _ _⟩) fun e => ?_
      show asked e (Function.update s.toClient i (s.toClient i ++ _) i) +
        answered e (Function.update s.toServer i rest i) = _
      rw [Function.update_self, Function.update_self, asked_append, hhead]
      rfl
  | received i name fp rest server hhead hserver =>
      obtain ⟨-, -, hidle, -⟩ := Server.step_receive hserver
      have hnone := hf.waiting_idle hidle
      refine hs.exchange i (fun e => ?_) (fun j hj => ⟨rfl, Function.update_of_ne hj _ _⟩)
        fun e => ?_
      · exact Hub.waiting_same (s := (s.take i rest).put i server) hnone rfl
      · show _ + answered e (Function.update s.toServer i rest i) = _
        rw [Function.update_self, hhead]
        rfl
  | refused i name fp rest hhead hunknown =>
      refine hs.exchange i (fun _ => rfl)
        (fun j hj => ⟨Function.update_of_ne hj _ _, Function.update_of_ne hj _ _⟩) fun e => ?_
      show asked e (Function.update s.toClient i (s.toClient i ++ _) i) +
        answered e (Function.update s.toServer i rest i) = _
      rw [Function.update_self, Function.update_self, asked_append, hhead]
      rfl
  | responded i e rest hhead hidle => exact hs.responded hhead
  | emitted f name fp hnone hknown =>
      have hnone' : s.waiting (.fiber f) = none := by rw [Hub.waiting, hnone]; rfl
      exact hs.set_idle hnone' rfl
  | reached e em i server hem hwaiting hleft hserver => exact hs.reached hf hem hwaiting hserver
  | ended f em thrown hem hwaiting hleft =>
      exact hs.set_idle (Hub.waiting_none hem hwaiting) rfl
  | returned i em thrown server hem hwaiting hleft hcaught hserver =>
      have hnone := Hub.waiting_none hem hwaiting
      refine hs.exchange i (fun e => ?_) (fun j hj => ⟨Function.update_of_ne hj _ _, rfl⟩)
        fun e => ?_
      · exact Hub.waiting_same (s := s.put i server) hnone rfl
      · show asked e (Function.update s.toClient i (s.toClient i ++ _) i) + _ = _
        rw [Function.update_self, asked_append]
        rfl
  | escaped i em server hem hwaiting hserver =>
      have hnone := Hub.waiting_none hem hwaiting
      exact hs.exchange i (fun e => Hub.waiting_same (s := s.put i server) hnone rfl)
        (fun _ _ => ⟨rfl, rfl⟩) fun _ => rfl

end Sound

/-! ## Sessions that lock each other up -/

section LockUps

variable {names : List Text} {h : List (Noticed ι φ π)} {s s' : Hub ι φ π} {ev : HubEvent ι φ π}

/-- A session whose read loop waits is delivering an emission of its client. -/
theorem Follows.busy (hf : Follows names h s) {i j : ι} (hwaits : s.Waits i j) :
    (s.session i).delivery ≠ none := by
  obtain ⟨em, hem, -⟩ := hwaits
  intro hidle
  have hdelivery := hf.delivery i
  rw [Server.delivered, hidle, hem] at hdelivery
  cases hdelivery

/-- What a step does to what an emission waits for. -/
theorem waiting_of_step [Fintype ι] (hf : Follows names h s)
    (hstep : s.step ev = .next s') (e : Emitter ι φ) :
    s'.waiting e = s.waiting e ∨
      (∃ i, s.waiting e = some i ∧ (s.session i).delivery = none ∧ s'.waiting e = none) ∨
      ∃ em i, s.emission e = some em ∧ s.waiting e = none ∧ s'.waiting e = some i ∧
        e ≠ .loop i ∧ (s.session i).delivered ≠ some em.name ∧
          ∀ e', e' ≠ e → s'.emission e' = s.emission e' := by
  cases happens_of_step hstep with
  | reported | invoked | arrived | answered | connected | refused => exact .inl rfl
  | received i name fp rest server hhead hserver =>
      obtain ⟨-, -, hidle, -⟩ := Server.step_receive hserver
      have hnone := hf.waiting_idle hidle
      exact .inl (Hub.waiting_same (s := (s.take i rest).put i server) hnone rfl)
  | responded i e' rest hhead hidle =>
      rw [Hub.resume]
      split
      · rename_i em hem
        split
        · rename_i hwaiting
          by_cases he : e = e'
          · refine .inr (.inl ⟨i, ?_, hidle, ?_⟩)
            · rw [he, Hub.waiting]
              exact Option.bind_eq_some_iff.mpr ⟨em, hem, hwaiting⟩
            · rw [Hub.waiting_set, if_pos he]
              rfl
          · refine .inl ?_
            rw [Hub.waiting_set, if_neg he]
            rfl
        · exact .inl rfl
      · exact .inl rfl
  | emitted f name fp hnone hknown =>
      have hnone' : s.waiting (.fiber f) = none := by rw [Hub.waiting, hnone]; rfl
      exact .inl (Hub.waiting_same hnone' rfl)
  | reached e' em i server hem hwaiting hleft hserver =>
      have hnone := Hub.waiting_none hem hwaiting
      have hsent := hf.sent hserver
      by_cases hcond : e' ≠ .loop i ∧ countOf i em.name h ≠ 0 ∧
          (s.session i).delivered ≠ some em.name
      · rw [if_pos hcond] at hsent
        rw [Hub.called, hsent, if_neg (List.cons_ne_nil _ _)]
        by_cases he : e = e'
        · subst he
          refine .inr (.inr ⟨em, i, hem, hnone, ?_, hcond.1, hcond.2.2, fun e' he' => ?_⟩)
          · show ((s.put i server).set e _).waiting e = _
            rw [Hub.waiting_set, if_pos rfl]
            rfl
          · exact Function.update_of_ne he' _ _
        · refine .inl ?_
          show ((s.put i server).set e' _).waiting e = _
          rw [Hub.waiting_set, if_neg he]
          rfl
      · rw [if_neg hcond] at hsent
        rw [Hub.called, hsent, if_pos rfl]
        exact .inl (Hub.waiting_same (s := s.put i server) hnone rfl)
  | ended f em thrown hem hwaiting hleft =>
      have hnone := Hub.waiting_none hem hwaiting
      exact .inl (Hub.waiting_same hnone rfl)
  | returned i em thrown server hem hwaiting hleft hcaught hserver =>
      have hnone := Hub.waiting_none hem hwaiting
      exact .inl (Hub.waiting_same (s := s.put i server) hnone rfl)
  | escaped i em server hem hwaiting hserver =>
      have hnone := Hub.waiting_none hem hwaiting
      exact .inl (Hub.waiting_same (s := s.put i server) hnone rfl)

/-- Nobody stops waiting for a session that waits itself. -/
theorem waits_kept [Fintype ι] (hf : Follows names h s)
    (hstep : s.step ev = .next s') {i j : ι} (hi : s.Waits i j) (hj : ∃ k, s.Waits j k) :
    s'.Waits i j := by
  obtain ⟨k, hk⟩ := hj
  rw [Hub.waits_iff] at hi ⊢
  rcases waiting_of_step hf hstep (.loop i) with
    hsame | ⟨j', hj', hidle, -⟩ | ⟨_, _, _, hnone, _⟩
  · rw [hsame, hi]
  · obtain rfl := Option.some.inj (hi.symm.trans hj')
    exact absurd hidle (hf.busy hk)
  · cases hi.symm.trans hnone

/-- Where an object has one signal, nobody begins to wait for a session that waits itself. -/
theorem waits_new [Fintype ι] (hf : Follows names h s)
    (hone : ∀ a ∈ names, ∀ b ∈ names, a = b) (hstep : s.step ev = .next s') {i j : ι}
    (hi : s'.Waits i j) (hj : ∃ k, s'.Waits j k) : s.Waits i j := by
  obtain ⟨k, hk⟩ := hj
  rw [Hub.waits_iff] at hi ⊢
  rcases waiting_of_step hf hstep (.loop i) with hsame | ⟨j', -, -, hnone⟩ |
    ⟨em, j', hem, -, hi', hapart, hquiet, hothers⟩
  · rw [← hsame, hi]
  · cases hi.symm.trans hnone
  · obtain rfl := Option.some.inj (hi.symm.trans hi')
    have hne : Emitter.loop j ≠ (.loop i : Emitter ι φ) := Ne.symm hapart
    obtain ⟨em', hem', -⟩ := hk
    rw [hothers _ hne] at hem'
    have hdelivery := hf.delivery j
    rw [hem', Option.map_some,
      hone _ (hf.known _ em' hem' j) _ (hf.known _ em hem j)] at hdelivery
    exact absurd hdelivery hquiet

end LockUps

/-! ## How much is left to do -/

/-- How many steps a message takes at most, where there are `n` sessions. -/
def FromClient.work (n : Nat) : FromClient ι φ π → Nat
  | .connectSignal _ _ => 2
  | .emission _ _ => 3 * n + 3
  | .response _ => 1

/-- How many steps a message to a client takes at most. -/
def FromServer.work : FromServer ι φ π → Nat
  | .emission _ _ _ => 2
  | .response => 1

/-- How many steps an emission that goes on takes at most. -/
def Emission.work (em : Emission ι π) : Nat := 3 * em.left.card + 2

/-- How many steps can be taken before a client or the program does something new. -/
def Hub.work [Fintype ι] [Fintype φ] (s : Hub ι φ π) : Nat :=
  (∑ i, ((s.toServer i).map (FromClient.work (Fintype.card ι))).sum) +
    (∑ i, ((s.toClient i).map FromServer.work).sum) + ∑ e, (s.emission e).elim 0 Emission.work

section Work

variable [Fintype ι] [Fintype φ] {names : List Text} {h : List (Noticed ι φ π)} {s s' : Hub ι φ π}
  {ev : HubEvent ι φ π}

omit [Fintype ι] [DecidableEq ι] [Fintype φ] [DecidableEq φ] in
/-- A sum in which one of the summands changes. -/
theorem sum_update {α β : Type} [Fintype α] [DecidableEq α] (w : β → Nat) (g : α → β) (a : α)
    (x : β) : (∑ b, w (Function.update g a x b)) + w (g a) = (∑ b, w (g b)) + w x := by
  have hsplit : ∀ f : α → Nat, ∑ b, f b = f a + ∑ b ∈ Finset.univ.erase a, f b :=
    fun f => (Finset.add_sum_erase Finset.univ f (Finset.mem_univ a)).symm
  rw [hsplit (fun b => w (Function.update g a x b)), hsplit (fun b => w (g b)),
    Function.update_self, Finset.sum_congr rfl fun b hb => by
      rw [Function.update_of_ne (Finset.ne_of_mem_erase hb)]]
  omega

/-- The work where the messages of one client and one emission change. -/
theorem work_change (s s' : Hub ι φ π) (i : ι) (e : Emitter ι φ) (up : List (FromClient ι φ π))
    (down : List (FromServer ι φ π)) (em : Option (Emission ι π))
    (hup : s'.toServer = Function.update s.toServer i up)
    (hdown : s'.toClient = Function.update s.toClient i down)
    (hemission : s'.emission = Function.update s.emission e em) :
    s'.work + ((s.toServer i).map (FromClient.work (Fintype.card ι))).sum +
        ((s.toClient i).map FromServer.work).sum + (s.emission e).elim 0 Emission.work =
      s.work + (up.map (FromClient.work (Fintype.card ι))).sum +
        (down.map FromServer.work).sum + em.elim 0 Emission.work := by
  have hsums := sum_update (fun l => (l.map (FromClient.work (Fintype.card ι))).sum) s.toServer i up
  have hsums' := sum_update (fun l => (l.map FromServer.work).sum) s.toClient i down
  have hsums'' := sum_update (fun em => em.elim 0 Emission.work) s.emission e em
  rw [Hub.work, Hub.work, hup, hdown, hemission]
  omega

/-- The work where one emission changes. -/
theorem work_emission (s s' : Hub ι φ π) (e : Emitter ι φ) (em : Option (Emission ι π))
    (hup : s'.toServer = s.toServer) (hdown : s'.toClient = s.toClient)
    (hemission : s'.emission = Function.update s.emission e em) :
    s'.work + (s.emission e).elim 0 Emission.work = s.work + em.elim 0 Emission.work := by
  have hsums := sum_update (fun em => em.elim 0 Emission.work) s.emission e em
  rw [Hub.work, Hub.work, hup, hdown, hemission]
  omega

/-- A step of a loop or of an emission does some of the work. -/
theorem work_of_step (hf : Follows names h s) (hloops : ev.OfLoops)
    (hstep : s.step ev = .next s') : s'.work < s.work := by
  have hself : ∀ (e : Emitter ι φ), s.emission = Function.update s.emission e (s.emission e) :=
    fun e => (Function.update_eq_self e s.emission).symm
  have hdown : ∀ i, s.toClient = Function.update s.toClient i (s.toClient i) :=
    fun i => (Function.update_eq_self i s.toClient).symm
  have hup : ∀ i, s.toServer = Function.update s.toServer i (s.toServer i) :=
    fun i => (Function.update_eq_self i s.toServer).symm
  cases happens_of_step hstep with
  | reported | invoked | emitted => cases hloops
  | arrived i e name fp rest hhead =>
      have hchange := work_change s ((s.takeDown i rest).sendUp i (.response e)) i (.loop i)
        (s.toServer i ++ [.response e]) rest (s.emission (.loop i)) rfl rfl (hself _)
      rw [hhead, List.map_cons, List.sum_cons, List.map_append, List.sum_append] at hchange
      simp only [FromServer.work, List.map_cons, List.map_nil, List.sum_cons, List.sum_nil,
        FromClient.work] at hchange
      omega
  | answered i rest hhead =>
      have hchange := work_change s (s.takeDown i rest) i (.loop i) (s.toServer i) rest
        (s.emission (.loop i)) (hup i) rfl (hself _)
      rw [hhead, List.map_cons, List.sum_cons] at hchange
      simp only [FromServer.work] at hchange
      omega
  | connected i sig count rest server hhead hserver =>
      have hchange := work_change s (((s.take i rest).put i server).sendDown i [.response]) i
        (.loop i) rest (s.toClient i ++ [.response]) (s.emission (.loop i)) rfl rfl (hself _)
      rw [hhead, List.map_cons, List.sum_cons, List.map_append, List.sum_append] at hchange
      simp only [FromServer.work, List.map_cons, List.map_nil, List.sum_cons, List.sum_nil,
        FromClient.work] at hchange
      omega
  | received i name fp rest server hhead hserver =>
      have hchange := work_change
        s (((s.take i rest).put i server).set (.loop i) (some ⟨name, fp, Finset.univ, none⟩))
        i (.loop i) rest (s.toClient i) (some ⟨name, fp, Finset.univ, none⟩) rfl (hdown i) rfl
      rw [hhead, List.map_cons, List.sum_cons] at hchange
      simp only [FromClient.work, Option.elim_some, Emission.work, Finset.card_univ] at hchange
      omega
  | refused i name fp rest hhead hunknown =>
      have hchange := work_change s ((s.take i rest).sendDown i [.response]) i
        (.loop i) rest (s.toClient i ++ [.response]) (s.emission (.loop i)) rfl rfl (hself _)
      rw [hhead, List.map_cons, List.sum_cons, List.map_append, List.sum_append] at hchange
      simp only [FromServer.work, List.map_cons, List.map_nil, List.sum_cons, List.sum_nil,
        FromClient.work] at hchange
      omega
  | responded i e rest hhead hidle =>
      obtain ⟨em, hem, hwork⟩ : ∃ em, ((s.take i rest).resume i e).emission =
          Function.update s.emission e em ∧
            em.elim 0 Emission.work = (s.emission e).elim 0 Emission.work := by
        rw [Hub.resume]
        split
        · rename_i em hem
          change s.emission e = some em at hem
          split
          · exact ⟨_, rfl, by rw [hem]; rfl⟩
          · exact ⟨_, hself e, rfl⟩
        · exact ⟨_, hself e, rfl⟩
      have hchange := work_change s ((s.take i rest).resume i e) i e rest (s.toClient i) em
        (by rw [resume_to_server]; rfl) (by rw [resume_to_client]; exact hdown i) hem
      rw [hhead, List.map_cons, List.sum_cons] at hchange
      simp only [FromClient.work] at hchange
      omega
  | reached e em i server hem hwaiting hleft hserver =>
      have hchange := work_change s (s.called e em i server) i e (s.toServer i)
        (s.toClient i ++ (server.sent.drop (s.session i).sent.length).map
          fun name => .emission e name em.fp) _ (hup i) rfl rfl
      have hcard := Finset.card_erase_add_one hleft
      rw [hem, hf.sent hserver, List.map_append, List.sum_append] at hchange
      simp only [Option.elim_some, Emission.work] at hchange
      by_cases hsent : e ≠ .loop i ∧ countOf i em.name h ≠ 0 ∧
          (s.session i).delivered ≠ some em.name
      · simp only [if_pos hsent, List.map_cons, List.map_nil, FromServer.work, List.sum_cons,
          List.sum_nil] at hchange
        omega
      · simp only [if_neg hsent, List.map_nil, List.sum_nil] at hchange
        omega
  | ended f em thrown hem hwaiting hleft =>
      have hchange := work_emission s (s.set (.fiber f) none) (.fiber f) none rfl rfl rfl
      rw [hem] at hchange
      simp only [Option.elim_some, Option.elim_none, Emission.work] at hchange
      omega
  | returned i em thrown server hem hwaiting hleft hcaught hserver =>
      have hchange := work_change s (((s.put i server).set (.loop i) none).sendDown i [.response])
        i (.loop i) (s.toServer i) (s.toClient i ++ [.response]) none (hup i) rfl rfl
      rw [hem, List.map_append, List.sum_append] at hchange
      simp only [FromServer.work, List.map_cons, List.map_nil, List.sum_cons, List.sum_nil,
        Option.elim_some, Option.elim_none, Emission.work] at hchange
      omega
  | escaped i em server hem hwaiting hserver =>
      have hchange := work_emission s (((s.put i server).set (.loop i) none).leave i) (.loop i) none
        rfl rfl rfl
      rw [hem] at hchange
      simp only [Option.elim_some, Option.elim_none, Emission.work] at hchange
      omega

end Work

/-! ## The end of a broadcast -/

/-- No loop and no emission can go on. -/
def Hub.Stuck [Fintype ι] (s : Hub ι φ π) : Prop := ∀ ev s', ev.OfLoops → s.step ev ≠ .next s'

/-- Nothing is in progress and nothing is on its way. -/
structure Hub.Finished (s : Hub ι φ π) : Prop where
  emission : ∀ e, s.emission e = none
  toServer : ∀ i, s.toServer i = []
  toClient : ∀ i, s.toClient i = []

section End

variable [Fintype ι] {names : List Text} {h : List (Noticed ι φ π)} {s s' : Hub ι φ π}

/-- The clients have taken everything. -/
theorem stuck_clients (hstuck : s.Stuck) (i : ι) : s.toClient i = [] := by
  cases hhead : s.toClient i with
  | nil => rfl
  | cons msg rest =>
      exfalso
      cases msg with
      | emission e name fp =>
          exact hstuck (.clientRead i) _ trivial (by simp only [Hub.step, hhead]; rfl)
      | response =>
          exact hstuck (.clientRead i) _ trivial (by simp only [Hub.step, hhead]; rfl)

omit [Fintype ι] in
/-- A signal of the interface has a slot that can be called. -/
theorem slot_can_be_called (hf : Follows names h s) {e : Emitter ι φ} {em : Emission ι π}
    (hem : s.emission e = some em) (i : ι) :
    ∃ server, (s.session i).step (if e = .loop i then .reach else .emit em.name) =
      .next server := by
  by_cases he : e = .loop i
  · rw [if_pos he]
    have hdelivery := hf.delivery i
    rw [← he, hem, Server.delivered] at hdelivery
    obtain ⟨d, hd, -⟩ := Option.map_eq_some_iff.mp hdelivery
    exact ⟨_, by simp only [Server.step, hd]; rfl⟩
  · rw [if_neg he]
    obtain ⟨f, hfunctor⟩ := Option.isSome_iff_exists.mp
      ((hf.interface i em.name).mpr (hf.known e em hem i))
    exact ⟨_, by simp only [Server.step, hfunctor]; rfl⟩

/-- Every emission waits for a client. -/
theorem stuck_waits (hf : Follows names h s) (hstuck : s.Stuck) {e : Emitter ι φ}
    (he : s.emission e ≠ none) : ∃ i, s.waiting e = some i := by
  obtain ⟨em, hem⟩ := Option.ne_none_iff_exists'.mp he
  rw [Hub.waiting, hem, Option.bind_some]
  refine Option.ne_none_iff_exists'.mp fun hwaiting => ?_
  rcases Finset.eq_empty_or_nonempty em.left with hleft | ⟨i, hi⟩
  · cases e with
    | fiber f =>
        refine hstuck (.finish (.fiber f) none) (s.set (.fiber f) none) trivial ?_
        simp only [Hub.step, hem]
        exact if_pos ⟨hwaiting, fun _ => hleft⟩
    | loop i =>
        have hdelivery := hf.delivery i
        rw [hem, Server.delivered] at hdelivery
        obtain ⟨d, hd, -⟩ := Option.map_eq_some_iff.mp hdelivery
        exact hstuck (.finish (.loop i) none) _ trivial (by
          simp only [Hub.step, hem, hwaiting, hleft, Server.step, hd, Result.map]
          rfl)
  · obtain ⟨server, hserver⟩ := slot_can_be_called hf hem i
    refine hstuck (.slot e i) (s.called e em i server) trivial ?_
    simp only [Hub.step, hem, if_pos (And.intro hwaiting hi), hserver, Result.map]

/-- A session with messages in front of it delivers an emission. -/
theorem stuck_sessions (hf : Follows names h s) (hreads : ∀ i, s.reads i = true)
    (hstuck : s.Stuck) {i : ι} (hmsgs : s.toServer i ≠ []) : s.emission (.loop i) ≠ none := by
  intro hnone
  have hdelivery := hf.delivery i
  rw [hnone, Server.delivered, Option.map_none, Option.map_eq_none_iff] at hdelivery
  obtain ⟨msg, rest, hhead⟩ := List.exists_cons_of_ne_nil hmsgs
  cases msg with
  | connectSignal sig count =>
      exact hstuck (.serverRead i) _ trivial (by
        simp only [Hub.step, hreads, hdelivery, Option.isNone_none, Bool.and_self, if_true, hhead,
          Server.step, Result.map]
        rfl)
  | emission name fp =>
      cases hfunctor : (s.session i).functors name with
      | none =>
          exact hstuck (.serverRead i) _ trivial (by
            simp only [Hub.step, hreads, hdelivery, Option.isNone_none, Bool.and_self, if_true,
              hhead, hfunctor]
            rfl)
      | some f =>
          exact hstuck (.serverRead i) _ trivial (by
            simp only [Hub.step, hreads, hdelivery, Option.isNone_none, Bool.and_self, if_true,
              hhead, hfunctor, Server.step, Result.map]
            rfl)
  | response e =>
      exact hstuck (.serverRead i) _ trivial (by
        simp only [Hub.step, hreads, hdelivery, Option.isNone_none, Bool.and_self, if_true, hhead]
        rfl)

/-- The session that an emission waits for delivers one itself. -/
theorem stuck_next (hf : Follows names h s) (hs : s.Sound) (hreads : ∀ i, s.reads i = true)
    (hstuck : s.Stuck) {e : Emitter ι φ} {i : ι} (hwaiting : s.waiting e = some i) :
    s.emission (.loop i) ≠ none := by
  refine stuck_sessions hf hreads hstuck fun hnil => ?_
  have hone := hs.outstanding e i
  rw [if_pos hwaiting, stuck_clients hstuck i, hnil] at hone
  cases hone

/-- What keeps the sessions from going on is that some of them wait for each other. -/
theorem stuck_locked (hf : Follows names h s) (hs : s.Sound) (hreads : ∀ i, s.reads i = true)
    (hstuck : s.Stuck) {e : Emitter ι φ} (he : s.emission e ≠ none) :
    ∃ i j, s.waiting e = some i ∧ Relation.ReflTransGen s.Waits i j ∧ Locked s.Waits j := by
  obtain ⟨i, hi⟩ := stuck_waits hf hstuck he
  obtain ⟨j, -, hleads, hlocked⟩ := leads_to_locked s.Waits
    (S := {i | s.emission (.loop i) ≠ none}) (fun i hi => by
      obtain ⟨j, hj⟩ := stuck_waits hf hstuck hi
      exact ⟨j, stuck_next hf hs hreads hstuck hj, Hub.waits_iff.mpr hj⟩)
    (stuck_next hf hs hreads hstuck hi)
  exact ⟨i, j, hi, hleads, hlocked⟩

/-- Without that, everything has been done. -/
theorem stuck_finished (hf : Follows names h s) (hs : s.Sound) (hreads : ∀ i, s.reads i = true)
    (hstuck : s.Stuck) (hfree : ∀ i, ¬ Locked s.Waits i) : s.Finished := by
  have hemission : ∀ e, s.emission e = none := by
    intro e
    by_contra he
    obtain ⟨-, j, -, -, hlocked⟩ := stuck_locked hf hs hreads hstuck he
    exact hfree j hlocked
  refine ⟨hemission, fun i => ?_, stuck_clients hstuck⟩
  by_contra hmsgs
  exact stuck_sessions hf hreads hstuck hmsgs (hemission (.loop i))

/-- What is kept by every step at which nothing is thrown past `on_receive`. -/
structure Hub.Kept (names : List Text) (s : Hub ι φ π) : Prop where
  follows : ∃ h, Follows names h s
  sound : s.Sound
  reads : ∀ i, s.reads i = true

omit [Fintype ι] in
theorem Hub.Kept.new : (Hub.new names : Hub ι φ π).Kept names where
  follows := ⟨[], .new names⟩
  sound := ⟨fun _ _ => rfl, nofun⟩
  reads _ := rfl

theorem Hub.Kept.step {ev : HubEvent ι φ π} (hk : s.Kept names) (hcaught : s.Caught ev)
    (hstep : s.step ev = .next s') : s'.Kept names := by
  obtain ⟨⟨h, hf⟩, hs, hreads⟩ := hk
  refine ⟨⟨_, hf.step hstep⟩, hs.step hf hstep, ?_⟩
  cases happens_of_step hstep with
  | reported | invoked | arrived | answered | connected | received | refused | emitted | reached |
    ended | returned => exact hreads
  | responded i e rest hhead hidle =>
      rw [Hub.resume]
      split
      · split <;> exact hreads
      · exact hreads
  | escaped i em server hem hwaiting hserver => exact absurd rfl (hcaught (.loop i))

theorem kept_run (htrace : Trace (hub ι φ π names) Hub.Caught Hub.see h s) : s.Kept names := by
  refine htrace.invariant ?_ fun s ev s' hk hcaught hstep => hk.step hcaught hstep
  intro s hs
  obtain rfl := hs
  exact .new

omit [Fintype ι] in
/-- Sessions that lock each other up are two at least. -/
theorem locked_apart (hs : s.Sound) {i : ι} (hlocked : Locked s.Waits i) :
    ∃ j, j ≠ i ∧ s.Waits i j ∧ Locked s.Waits j := by
  obtain ⟨j, hj, hback⟩ := Relation.TransGen.head'_iff.mp hlocked
  refine ⟨j, ?_, hj, .tail' hback hj⟩
  rintro rfl
  exact hs.apart j (Hub.waits_iff.mp hj)

/-- The steps of the loops and of the emissions do the work that there is. -/
theorem work_of_path [Fintype φ] (hk : s.Kept names) {es : List (HubEvent ι φ π)}
    (hpath : Path (hub ι φ π names) s es s')
    (hes : ∀ ev ∈ es, ev.OfLoops ∧ ∀ e, ev ≠ .finish e (some .foreign)) :
    es.length ≤ s.work ∧ s'.Kept names := by
  obtain ⟨hbound, hend⟩ := hpath.bounded (P := Hub.Kept names) (m := Hub.work)
    (fun ev : HubEvent ι φ π => ev.OfLoops ∧ ∀ e, ev ≠ .finish e (some .foreign))
    (fun s ev s' hk hev hstep =>
      ⟨hk.step hev.2 hstep, hk.follows.elim fun h hf => work_of_step hf hev.1 hstep⟩)
    hes hk
  exact ⟨by omega, hend⟩

/-- Over every run, the sessions come to an end with the messages and the emissions whatever the
order of the steps, unless some of them lock each other up, which takes two of them and lasts for
ever. -/
theorem broadcasts_settle [Fintype φ]
    (htrace : Trace (hub ι φ π names) Hub.Caught Hub.see h s) :
    (∀ i, Locked s.Waits i → ∃ j, j ≠ i ∧ s.Waits i j ∧ Locked s.Waits j) ∧
    (∀ i es s', Locked s.Waits i → Path (hub ι φ π names) s es s' → Locked s'.Waits i) ∧
    ∀ es s', Path (hub ι φ π names) s es s' →
      (∀ ev ∈ es, ev.OfLoops ∧ ∀ e, ev ≠ .finish e (some .foreign)) →
      es.length ≤ s.work ∧ (s'.Stuck →
        (∀ e, s'.emission e ≠ none → ∃ i j, s'.waiting e = some i ∧
          Relation.ReflTransGen s'.Waits i j ∧ Locked s'.Waits j) ∧
        ((∀ i, ¬ Locked s'.Waits i) → s'.Finished)) := by
  have hkept := kept_run htrace
  refine ⟨fun i => locked_apart hkept.sound, fun i es s' hlocked hpath => ?_,
    fun es s' hpath hes => ?_⟩
  · refine (hpath.invariant (P := fun s => (∃ h, Follows names h s) ∧ Locked s.Waits i)
      (fun _ => True) ?_ (fun _ _ => trivial) ⟨hkept.follows, hlocked⟩).2
    rintro s ev s' ⟨⟨h, hf⟩, hlocked⟩ - hstep
    exact ⟨⟨_, hf.step hstep⟩, hlocked.kept fun i j => waits_kept hf hstep⟩
  · obtain ⟨hbound, ⟨h', hf⟩, hs, hreads⟩ := work_of_path hkept hpath hes
    refine ⟨hbound, fun hstuck => ?_⟩
    exact ⟨fun e he => stuck_locked hf hs hreads hstuck he,
      fun hfree => stuck_finished hf hs hreads hstuck hfree⟩

/-- What is kept by every step of the sessions of an object with one signal. -/
structure Hub.Unlocked (names : List Text) (s : Hub ι φ π) : Prop where
  follows : ∃ h, Follows names h s
  sound : s.Sound
  free : ∀ i, ¬ Locked s.Waits i

omit [Fintype ι] in
theorem Hub.Unlocked.new : (Hub.new names : Hub ι φ π).Unlocked names where
  follows := ⟨[], .new names⟩
  sound := Hub.Kept.new.sound
  free i hlocked := by
    obtain ⟨j, em, hem, -⟩ := hlocked.blocked
    cases hem

theorem Hub.Unlocked.step {ev : HubEvent ι φ π} (hone : ∀ a ∈ names, ∀ b ∈ names, a = b)
    (hu : s.Unlocked names) (hstep : s.step ev = .next s') : s'.Unlocked names := by
  obtain ⟨⟨h, hf⟩, hs, hfree⟩ := hu
  -- who waits for a session that waits itself, did so before
  exact ⟨⟨_, hf.step hstep⟩, hs.step hf hstep, fun i hlocked =>
    hfree i (hlocked.kept fun i j => waits_new hf hone hstep)⟩

/-- Over every run, the sessions of an object with one signal do not lock each other up. From
where no loop has been left, they come to an end with everything whatever the order of the steps. -/
theorem one_signal_settles [Fintype φ] (hone : ∀ a ∈ names, ∀ b ∈ names, a = b)
    (htrace : Trace (hub ι φ π names) (fun _ _ => True) Hub.see h s) :
    (∀ i, ¬ Locked s.Waits i) ∧
    ((∀ i, s.reads i = true) → ∀ es s', Path (hub ι φ π names) s es s' →
      (∀ ev ∈ es, ev.OfLoops ∧ ∀ e, ev ≠ .finish e (some .foreign)) →
      es.length ≤ s.work ∧ (s'.Stuck → s'.Finished)) := by
  have hunlocked : s.Unlocked names := by
    refine htrace.invariant (fun s hs => ?_) fun s ev s' hu _ hstep => hu.step hone hstep
    obtain rfl := hs
    exact .new
  refine ⟨hunlocked.free, fun hreads es s' hpath hes => ?_⟩
  obtain ⟨hbound, ⟨h', hf⟩, hs, hreads'⟩ :=
    work_of_path ⟨hunlocked.follows, hunlocked.sound, hreads⟩ hpath hes
  refine ⟨hbound, fun hstuck => stuck_finished hf hs hreads' hstuck ?_⟩
  have hunlocked' : s'.Unlocked names := hpath.invariant (fun _ => True)
    (fun s ev s' hu _ hstep => hu.step hone hstep) (fun _ _ => trivial) hunlocked
  exact hunlocked'.free

end End

/-- Each of two clients has slots for one signal and emits the other one, and their sessions lock
each other up for ever. -/
theorem two_signals_locked :
    ∃ s : Hub (Fin 2) Unit Int, Locked s.Waits 0 ∧ ∀ es s',
      Path (Pair [str "got_result", str "count"]) s es s' → Locked s'.Waits 0 := by
  have start : Trace (Pair [str "got_result", str "count"]) Hub.Caught Hub.see []
      (.new [str "got_result", str "count"]) := .start _ rfl
  have reported := Trace.step _ _ _ (.report 0 (str "count") 1) start nofun rfl
  have connected := Trace.step _ _ _ (.serverRead 0) reported nofun rfl
  have reported' := Trace.step _ _ _ (.report 1 (str "got_result") 1) connected nofun rfl
  have connected' := Trace.step _ _ _ (.serverRead 1) reported' nofun rfl
  have invoked := Trace.step _ _ _ (.invoke 0 (str "got_result") 7) connected' nofun rfl
  have received := Trace.step _ _ _ (.serverRead 0) invoked nofun rfl
  have invoked' := Trace.step _ _ _ (.invoke 1 (str "count") 8) received nofun rfl
  have received' := Trace.step _ _ _ (.serverRead 1) invoked' nofun rfl
  have waits := Trace.step _ _ _ (.slot (.loop 0) 1) received' nofun rfl
  have waits' := Trace.step _ _ _ (.slot (.loop 1) 0) waits nofun rfl
  obtain ⟨h, s, htrace, h01, h10⟩ : ∃ (h : List (Noticed (Fin 2) Unit Int))
      (s : Hub (Fin 2) Unit Int),
        Trace (Pair [str "got_result", str "count"]) Hub.Caught Hub.see h s ∧
          s.Waits 0 1 ∧ s.Waits 1 0 :=
    ⟨_, _, waits', ⟨_, rfl, rfl⟩, ⟨_, rfl, rfl⟩⟩
  have hlocked : Locked s.Waits 0 := .head h01 (.single h10)
  exact ⟨s, hlocked, fun es s' => (broadcasts_settle htrace).2.1 0 es s' hlocked⟩

/-- Both clients emit the one signal, and everything comes to an end. -/
theorem one_signal_pair :
    ∃ s : Hub (Fin 2) Unit Int, s.emission (.loop 0) ≠ none ∧ s.emission (.loop 1) ≠ none ∧
      ∀ es s', Path (Pair [str "got_result"]) s es s' →
        (∀ ev ∈ es, ev.OfLoops ∧ ∀ e, ev ≠ .finish e (some .foreign)) →
        es.length ≤ s.work ∧ (s'.Stuck → s'.Finished) := by
  have start : Trace (Pair [str "got_result"]) (fun _ _ => True) Hub.see []
      (.new [str "got_result"]) := .start _ rfl
  have invoked := Trace.step _ _ _ (.invoke 0 (str "got_result") 7) start trivial rfl
  have received := Trace.step _ _ _ (.serverRead 0) invoked trivial rfl
  have invoked' := Trace.step _ _ _ (.invoke 1 (str "got_result") 8) received trivial rfl
  have received' := Trace.step _ _ _ (.serverRead 1) invoked' trivial rfl
  obtain ⟨h, s, htrace, h0, h1, hreads⟩ : ∃ (h : List (Noticed (Fin 2) Unit Int))
      (s : Hub (Fin 2) Unit Int), Trace (Pair [str "got_result"]) (fun _ _ => True) Hub.see h s ∧
        s.emission (.loop 0) ≠ none ∧ s.emission (.loop 1) ≠ none ∧ ∀ i, s.reads i = true :=
    ⟨_, _, received', nofun, nofun, fun _ => rfl⟩
  have hone : ∀ a ∈ [str "got_result"], ∀ b ∈ [str "got_result"], a = b := by
    intro a ha b hb
    rw [List.mem_singleton.mp ha, List.mem_singleton.mp hb]
  exact ⟨s, h0, h1, (one_signal_settles hone htrace).2 hreads⟩

end BoostRpc.Json
