import BoostRpc.Json.Peers

/-!
# Calls that lock each other up

`no_lock_up` says under which condition on the handlers undelivered messages can always be
delivered, and `loop_waits_forever` what a handler does that breaks it: `read_loop` waits for a
message that only `read_loop` can take.
-/

namespace BoostRpc.Json

open Lts

variable {σ : Type}

/-- Some step can be taken. -/
def Enabled (l : Link σ) : Prop := ∃ e l', links.step l e = .next l'

/-- A fiber waits, and its request or its response is on its way. -/
def InFlight (l : Link σ) : Prop :=
  ∃ s f next id, (l s).activity f = some (.waiting next) ∧ (l s).pendingReq id.val = some f ∧
    ((∃ method params, Message.request id method params ∈ (l s.other).inbox) ∨
      ∃ r : Response, r.id = id ∧ Message.response r ∈ (l s).inbox)

/-- Some message is on its way. -/
def Undelivered (l : Link σ) : Prop := ∃ s, (l s).inbox ≠ []

/-- No handler calls `invoke` on the connection that it was called over, and none throws past
`on_receive`. -/
def HandlersReturn (l : Link σ) : Side × Action → Prop
  | (_, .invoke f) => f ≠ .readLoop
  | (s, .reply) =>
      ∀ id rtn, (l s).loop ≠ .handling id (.running (.finished rtn (some .foreign)))
  | _ => True

variable {p p' : Peer σ} {a : Action} {sent : Option Message}

/-! ## Who waits -/

/-- The entries of `pending_req` are those of waiting fibers, one for each at most. -/
structure Peer.Sound (p : Peer σ) : Prop where
  waiting : ∀ id f, p.pendingReq id = some f → ∃ next, p.activity f = some (.waiting next)
  once : ∀ id id' f, p.pendingReq id = some f → p.pendingReq id' = some f → id = id'

/-- The read loop is in front of a message or in a handler that does not wait. -/
def Peer.Serving (p : Peer σ) : Prop :=
  p.loop = .reading ∨ ∃ id routine, p.loop = .handling id (.running routine)

namespace Peer.Sound

variable {p p' : Peer σ}

/-- A fiber that runs has no entry. -/
theorem no_entry (h : p.Sound) {f : Fiber} {routine : Routine σ}
    (hf : p.activity f = some (.running routine)) (id : Int) : p.pendingReq id ≠ some f := by
  intro hid
  obtain ⟨next, hnext⟩ := h.waiting id f hid
  cases hf.symm.trans hnext

/-- A step that makes no entry and lets the waiting fibers wait. -/
theorem keep (h : p.Sound) (hpending : p'.pendingReq = p.pendingReq)
    (hwaiting : ∀ f next, p.activity f = some (.waiting next) →
      p'.activity f = some (.waiting next)) : p'.Sound := by
  refine ⟨fun id f hf => ?_, fun id id' f hf hf' => ?_⟩
  · rw [hpending] at hf
    obtain ⟨next, hnext⟩ := h.waiting id f hf
    exact ⟨next, hwaiting f next hnext⟩
  · rw [hpending] at hf hf'
    exact h.once id id' f hf hf'

/-- A step of the read loop, in which no fiber waits. -/
theorem read (h : p.Sound) (hloop : ∀ next, p.activity .readLoop ≠ some (.waiting next))
    (hpending : p'.pendingReq = p.pendingReq) (hcallers : p'.callers = p.callers) : p'.Sound := by
  refine h.keep hpending fun f next hf => ?_
  cases f with
  | readLoop => exact absurd hf (hloop next)
  | caller n =>
      simp only [Peer.activity, hcallers] at hf ⊢
      exact hf

/-- A fiber that ran waits for the response to a new request. -/
theorem invoke (h : p.Sound) {f : Fiber} {routine : Routine σ}
    (hf : p.activity f = some (.running routine)) (id : Int)
    (hpending : p'.pendingReq = Function.update p.pendingReq id (some f))
    {next : Value → σ → σ × Routine σ} (hnext : p'.activity f = some (.waiting next))
    (hother : ∀ g, g ≠ f → p'.activity g = p.activity g) : p'.Sound := by
  refine ⟨fun j g hg => ?_, fun j j' g hg hg' => ?_⟩
  · rw [hpending] at hg
    by_cases hj : j = id
    · subst hj
      rw [Function.update_self] at hg
      obtain rfl := Option.some.inj hg
      exact ⟨next, hnext⟩
    · rw [Function.update_of_ne hj] at hg
      obtain ⟨other, hwaiting⟩ := h.waiting j g hg
      have hgf : g ≠ f := fun heq => h.no_entry hf j (heq ▸ hg)
      exact ⟨other, (hother g hgf).trans hwaiting⟩
  · rw [hpending] at hg hg'
    by_cases hj : j = id
    · by_cases hj' : j' = id
      · exact hj.trans hj'.symm
      · rw [hj, Function.update_self] at hg
        rw [Function.update_of_ne hj', ← hg] at hg'
        exact absurd hg' (h.no_entry hf j')
    · rw [Function.update_of_ne hj] at hg
      by_cases hj' : j' = id
      · rw [hj', Function.update_self] at hg'
        rw [← hg'] at hg
        exact absurd hg (h.no_entry hf j)
      · rw [Function.update_of_ne hj'] at hg'
        exact h.once j j' g hg hg'

/-- A waiting fiber goes on, and its entry is gone. -/
theorem resume (h : p.Sound) {f : Fiber} {id : Int} (hf : p.pendingReq id = some f)
    (hpending : p'.pendingReq = Function.update p.pendingReq id none)
    (hother : ∀ g, g ≠ f → p'.activity g = p.activity g) : p'.Sound := by
  have hkept : ∀ j g, p'.pendingReq j = some g → p.pendingReq j = some g ∧ g ≠ f := by
    intro j g hg
    rw [hpending] at hg
    by_cases hj : j = id
    · rw [hj, Function.update_self] at hg
      exact absurd hg nofun
    · rw [Function.update_of_ne hj] at hg
      exact ⟨hg, fun heq => hj (h.once j id f (heq ▸ hg) hf)⟩
  refine ⟨fun j g hg => ?_, fun j j' g hg hg' => ?_⟩
  · obtain ⟨hold, hgf⟩ := hkept j g hg
    obtain ⟨next, hnext⟩ := h.waiting j g hold
    exact ⟨next, (hother g hgf).trans hnext⟩
  · exact h.once j j' g (hkept j g hg).1 (hkept j' g hg').1

end Peer.Sound

/-- Every step keeps the entries sound. -/
theorem sound_acted (h : p.Sound) (hacted : Acted p a p' sent) : p'.Sound := by
  cases hacted with
  | invoked f method params next hf =>
      exact h.invoke hf p.requestId (by simp) (Peer.set_activity_same _ hf)
        fun g hg => Peer.set_activity_other _ hg
  | woke f response next hf =>
      refine h.keep (by simp) fun g other hg => ?_
      have hgf : g ≠ f := by
        intro heq
        subst heq
        cases hf.symm.trans hg
      rw [Peer.set_activity_other _ hgf]
      exact hg
  | called id method params inbox handler hloop hinbox hmethod =>
      exact h.read (by simp [Peer.activity, hloop]) rfl rfl
  | refused id method params inbox hloop hinbox hmethod =>
      exact h.read (by simp [Peer.activity, hloop]) rfl rfl
  | resumed r f next inbox hloop hinbox hf hnext =>
      exact h.resume hf (by simp) fun g hg => Peer.set_activity_other _ hg
  | ignored r inbox hloop hinbox hr => exact h.read (by simp [Peer.activity, hloop]) rfl rfl
  | replied id rtn thrown r hloop hr => exact h.read (by simp [Peer.activity, hloop]) rfl rfl
  | escaped id rtn hloop => exact h.read (by simp [Peer.activity, hloop]) rfl rfl

/-- A step that is no call of the read loop, and no end of a handler that throws past
`on_receive`, leaves the read loop serving. -/
theorem serving_acted (h : p.Serving) (hacted : Acted p a p' sent)
    (hinvoke : a ≠ .invoke .readLoop)
    (hreply : a = .reply →
      ∀ id rtn, p.loop ≠ .handling id (.running (.finished rtn (some .foreign)))) :
    p'.Serving := by
  cases hacted with
  | invoked f method params next hf =>
      have hloop := Peer.set_activity_loop (p := { p with
        nextId := p.requestId
        pendingReq := Function.update p.pendingReq p.requestId (some f) })
        (.waiting next) (fun heq => hinvoke (congrArg Action.invoke heq))
      unfold Peer.Serving
      rw [hloop]
      exact h
  | woke f response next hf =>
      have hcaller : f ≠ .readLoop := by
        intro heq
        subst heq
        rcases h with hloop | ⟨id, routine, hloop⟩ <;> simp [Peer.activity, hloop] at hf
      have hsame := Peer.set_activity_loop (p := { p with world := (next response p.world).1 })
        (.running (next response p.world).2) hcaller
      unfold Peer.Serving
      rw [hsame]
      exact h
  | called id method params inbox handler hloop hinbox hmethod => exact Or.inr ⟨id, _, rfl⟩
  | refused id method params inbox hloop hinbox hmethod => exact Or.inl hloop
  | resumed r f next inbox hloop hinbox hf hnext =>
      have hcaller : f ≠ .readLoop := by
        intro heq
        subst heq
        simp [Peer.activity, hloop] at hnext
      have hsame := Peer.set_activity_loop (p := { p with
        inbox
        pendingReq := Function.update p.pendingReq r.id none })
        (.woken (.object r.body) next) hcaller
      unfold Peer.Serving
      rw [hsame]
      exact Or.inl hloop
  | ignored r inbox hloop hinbox hr => exact Or.inl hloop
  | replied id rtn thrown r hloop hr => exact Or.inl rfl
  | escaped id rtn hloop => exact absurd hloop (hreply rfl id rtn)

/-- A party with a message in front of it can take a step. -/
theorem acted_of_inbox (hsound : p.Sound) (hserving : p.Serving) (hinbox : p.inbox ≠ []) :
    ∃ a p' sent, Acted p a p' sent := by
  rcases hserving with hloop | ⟨id, routine, hloop⟩
  · obtain ⟨msg, inbox, hin⟩ := List.exists_cons_of_ne_nil hinbox
    cases msg with
    | request id method params =>
        cases hmethod : p.methods method with
        | some handler => exact ⟨_, _, _, .called id method params inbox handler hloop hin hmethod⟩
        | none => exact ⟨_, _, _, .refused id method params inbox hloop hin hmethod⟩
    | response r =>
        cases hr : p.pendingReq r.id with
        | none => exact ⟨_, _, _, .ignored r inbox hloop hin hr⟩
        | some f =>
            obtain ⟨next, hnext⟩ := hsound.waiting _ f hr
            exact ⟨_, _, _, .resumed r f next inbox hloop hin hr hnext⟩
  · cases routine with
    | finished rtn thrown =>
        cases hr : (Response.returns id rtn).caught thrown with
        | some r => exact ⟨_, _, _, .replied id rtn thrown r hloop hr⟩
        | none =>
            obtain rfl := caught_eq_none hr
            exact ⟨_, _, _, .escaped id rtn hloop⟩
    | invoke method params next =>
        have hactivity : p.activity .readLoop = some (.running (.invoke method params next)) := by
          simp only [Peer.activity, hloop]
        exact ⟨_, _, _, .invoked .readLoop method params next hactivity⟩

/-! ## Runs of two peers -/

/-- A step of the system is a step of one party, which may send to the other. -/
theorem links_step_iff {l l' : Link σ} {s : Side} {a : Action} :
    links.step l (s, a) = .next l' ↔ ∃ p sent, Acted (l s) a p sent ∧ l' = l.after s p sent := by
  constructor
  · intro h
    simp only [links] at h
    split at h
    · exact absurd h nofun
    · exact absurd h nofun
    · rename_i p sent hact
      exact ⟨p, sent, acted_of_act hact, (Result.next.inj h).symm⟩
  · intro h
    obtain ⟨p, sent, hacted, rfl⟩ := h
    simp only [links, act_of_acted hacted]

theorem Side.other_ne (s : Side) : s.other ≠ s := by
  cases s <;> decide

/-- The party that takes the step. -/
theorem after_same (l : Link σ) (s : Side) (p : Peer σ) (sent : Option Message) :
    l.after s p sent s = p := by
  rw [Link.after, Function.update_of_ne (Side.other_ne s).symm, Function.update_self]

/-- The other party. -/
theorem after_other (l : Link σ) (s : Side) (p : Peer σ) (sent : Option Message) :
    l.after s p sent s.other = (l s.other).deliver sent := by
  rw [Link.after, Function.update_self]

theorem Side.eq_or_other (s t : Side) : t = s ∨ t = s.other := by
  cases s <;> cases t <;> decide

/-- What a message that arrives leaves alone. -/
theorem sound_deliver {p : Peer σ} (h : p.Sound) (sent : Option Message) :
    (p.deliver sent).Sound := by
  cases sent with
  | none => exact h
  | some msg => exact h.keep rfl fun f next hf => by cases f <;> exact hf

theorem serving_deliver {p : Peer σ} (h : p.Serving) (sent : Option Message) :
    (p.deliver sent).Serving := by
  cases sent with
  | none => exact h
  | some msg => exact h

/-- What holds of both parties holds behind a step where it holds of the party that takes it and
a message that arrives keeps it. -/
theorem forall_after {P : Peer σ → Prop} {l : Link σ} {s : Side} {p : Peer σ}
    {sent : Option Message}
    (hl : ∀ t, P (l t)) (hp : P p) (hdeliver : ∀ q, P q → P (q.deliver sent)) (t : Side) :
    P (l.after s p sent t) := by
  rcases Side.eq_or_other s t with rfl | rfl
  · rw [after_same]
    exact hp
  · rw [after_other]
    exact hdeliver _ (hl _)

/-- No party waits in its read loop. -/
theorem serving_run {es : List (Side × Action)} {l : Link σ}
    (h : Lts.Run links HandlersReturn es l) : ∀ s, (l s).Sound ∧ (l s).Serving := by
  refine h.invariant (P := fun l => ∀ s, (l s).Sound ∧ (l s).Serving) ?_ ?_
  · intro l hl s
    obtain ⟨hloop, -, hpending, -⟩ := hl s
    refine ⟨⟨fun id f hf => ?_, fun id id' f hf _ => ?_⟩, Or.inl hloop⟩
    · cases (hpending id).symm.trans hf
    · cases (hpending id).symm.trans hf
  · intro l e l' hl hguard hstep
    obtain ⟨s, a⟩ := e
    obtain ⟨p, sent, hacted, rfl⟩ := links_step_iff.mp hstep
    obtain ⟨hsound, hserving⟩ := hl s
    refine forall_after (P := fun p => p.Sound ∧ p.Serving) hl
      ⟨sound_acted hsound hacted, serving_acted hserving hacted ?_ ?_⟩
      fun q hq => ⟨sound_deliver hq.1 sent, serving_deliver hq.2 sent⟩
    · intro ha
      subst ha
      exact hguard rfl
    · intro ha
      subst ha
      exact hguard

/-- A read loop that waits in a handler waits for ever, and takes no message any more. -/
theorem loop_waits_forever {l l' : Link σ} {s : Side} {id : Id} {next : Value → σ → σ × Routine σ}
    (hwaiting : (l s).loop = .handling id (.waiting next)) {es : List (Side × Action)}
    (h : Lts.Run { links with start := (· = l) } (fun _ _ => True) es l') :
    (l' s).loop = .handling id (.waiting next) ∧ (l s).inbox <+: (l' s).inbox := by
  refine h.invariant (P := fun l' => (l' s).loop = .handling id (.waiting next) ∧
    (l s).inbox <+: (l' s).inbox) ?_ ?_
  · rintro l' rfl
    exact ⟨hwaiting, List.prefix_rfl⟩
  · intro l₁ e l₂ hl₁ _ hstep
    obtain ⟨t, a⟩ := e
    obtain ⟨hloop₁, hinbox₁⟩ := hl₁
    obtain ⟨p, sent, hacted, rfl⟩ := links_step_iff.mp hstep
    rcases Side.eq_or_other t s with rfl | rfl
    · rw [after_same]
      cases hacted with
      | invoked f method params next' hf =>
          have hcaller : f ≠ .readLoop := by
            intro heq
            subst heq
            simp [Peer.activity, hloop₁] at hf
          rw [Peer.set_activity_loop _ hcaller]
          exact ⟨hloop₁, by simpa using hinbox₁⟩
      | woke f response next' hf =>
          have hcaller : f ≠ .readLoop := by
            intro heq
            subst heq
            simp [Peer.activity, hloop₁] at hf
          rw [Peer.set_activity_loop _ hcaller]
          exact ⟨hloop₁, by simpa using hinbox₁⟩
      | called id' method params inbox handler hloop => cases hloop₁.symm.trans hloop
      | refused id' method params inbox hloop => cases hloop₁.symm.trans hloop
      | resumed r f next' inbox hloop => cases hloop₁.symm.trans hloop
      | ignored r inbox hloop => cases hloop₁.symm.trans hloop
      | replied id' rtn thrown r hloop => exact absurd (hloop₁.symm.trans hloop) (by simp)
      | escaped id' rtn hloop => exact absurd (hloop₁.symm.trans hloop) (by simp)
    · rw [after_other]
      cases sent with
      | none => exact ⟨hloop₁, hinbox₁⟩
      | some msg => exact ⟨hloop₁, hinbox₁.trans (List.prefix_append _ _)⟩

/-! ## Lock-ups -/

/-- Every fiber of the party waits or has come to its end. -/
def Peer.Blocked (p : Peer σ) : Prop :=
  ((p.loop = .reading ∧ p.inbox = []) ∨ p.loop = .ended ∨
      ∃ id next, p.loop = .handling id (.waiting next)) ∧
    ∀ n, (∃ next, p.callers n = .waiting next) ∨
      ∃ rtn thrown, p.callers n = .running (.finished rtn thrown)

theorem Peer.Blocked.not_acted (h : p.Blocked) : ¬ Acted p a p' sent := by
  intro hacted
  obtain ⟨hloop, hcallers⟩ := h
  have hread : p.loop = .reading → p.inbox = [] := by
    intro hreading
    rcases hloop with ⟨-, hinbox⟩ | hended | ⟨id, next, hwaiting⟩
    · exact hinbox
    · cases hreading.symm.trans hended
    · cases hreading.symm.trans hwaiting
  have hhandling : ∀ id activity, p.loop = .handling id activity →
      ∃ next, activity = .waiting next := by
    intro id activity hhandling
    rcases hloop with ⟨hreading, -⟩ | hended | ⟨id', next, hwaiting⟩
    · cases hhandling.symm.trans hreading
    · cases hhandling.symm.trans hended
    · exact ⟨next, (ReadLoop.handling.inj (hhandling.symm.trans hwaiting)).2⟩
  have hfiber : ∀ f activity, p.activity f = some activity →
      (∃ next, activity = .waiting next) ∨
        ∃ rtn thrown, activity = .running (.finished rtn thrown) := by
    intro f activity hf
    cases f with
    | readLoop =>
        cases hl : p.loop with
        | handling id other =>
            simp only [Peer.activity, hl, Option.some.injEq] at hf
            subst hf
            exact Or.inl (hhandling id other hl)
        | reading => simp [Peer.activity, hl] at hf
        | ended => simp [Peer.activity, hl] at hf
    | caller n =>
        obtain rfl := Option.some.inj hf
        exact hcallers n
  cases hacted with
  | invoked f method params next hf =>
      rcases hfiber f _ hf with ⟨next', heq⟩ | ⟨rtn, thrown, heq⟩
      · cases heq
      · exact absurd heq (by simp)
  | woke f response next hf =>
      rcases hfiber f _ hf with ⟨next', heq⟩ | ⟨rtn, thrown, heq⟩
      · cases heq
      · cases heq
  | called id method params inbox handler hreading hinbox =>
      cases (hread hreading).symm.trans hinbox
  | refused id method params inbox hreading hinbox =>
      cases (hread hreading).symm.trans hinbox
  | resumed r f next inbox hreading hinbox =>
      cases (hread hreading).symm.trans hinbox
  | ignored r inbox hreading hinbox => cases (hread hreading).symm.trans hinbox
  | replied id rtn thrown r hrunning =>
      obtain ⟨next, heq⟩ := hhandling id _ hrunning
      cases heq
  | escaped id rtn hrunning =>
      obtain ⟨next, heq⟩ := hhandling id _ hrunning
      cases heq

/-- No step can be taken where both parties are blocked. -/
theorem not_enabled_of_blocked {l : Link σ} (h : ∀ s, (l s).Blocked) : ¬ Enabled l := by
  intro henabled
  obtain ⟨⟨s, a⟩, l', hstep⟩ := henabled
  obtain ⟨p, sent, hacted, -⟩ := links_step_iff.mp hstep
  exact (h s).not_acted hacted

/-- A message that is on its way can be delivered, or a fiber in front of it can run, in every
state of a run in which no handler calls `invoke` on its connection or throws past `on_receive`.
So no caller waits for a request or a response that is on its way and stays there. -/
theorem no_lock_up {es : List (Side × Action)} {l : Link σ}
    (h : Lts.Run links HandlersReturn es l) :
    (InFlight l → Enabled l) ∧ (Undelivered l → Enabled l) := by
  have hdelivered : Undelivered l → Enabled l := by
    intro hl
    obtain ⟨s, hinbox⟩ := hl
    obtain ⟨hsound, hserving⟩ := serving_run h s
    obtain ⟨a, p, sent, hacted⟩ := acted_of_inbox hsound hserving hinbox
    exact ⟨(s, a), _, links_step_iff.mpr ⟨p, sent, hacted, rfl⟩⟩
  refine ⟨fun hl => hdelivered ?_, hdelivered⟩
  obtain ⟨s, f, next, id, -, -, ⟨method, params, hmem⟩ | ⟨r, -, hmem⟩⟩ := hl
  · exact ⟨s.other, List.ne_nil_of_mem hmem⟩
  · exact ⟨s, List.ne_nil_of_mem hmem⟩

/-! A client of the calculator, connected to the signal `got_result` of its server. -/

/-- The argument of a method of one number, without what stands behind its point. -/
def argument : Value → Int
  | .array [.number (.finite x)] => truncate x
  | _ => 0

/-- `CalculatorServer::add`. -/
def add (params : Value) (mResult : Int) : Int × Routine Int :=
  (mResult + argument params, .finished (.int (mResult + argument params)) none)

/-- `CalculatorServer::sub`, which emits `got_result`: the forwarding slot calls `invoke`. -/
def sub (params : Value) (mResult : Int) : Int × Routine Int :=
  (mResult - argument params,
    .invoke (str "got_result") (.array [.int (mResult - argument params)]) fun _ mResult =>
      (mResult, .finished (.int mResult) none))

/-- The client, which calls this method, and the server. -/
def calculators (method : Text) : Link Int
  | .left =>
      { methods := fun name =>
          if name = str "got_result" then some fun _ world => (world, .finished .null none)
          else none
        pendingReq := fun _ => none
        nextId := 0
        world := 0
        loop := .reading
        callers
          | 0 => .running (.invoke method (.array [.int 3]) fun _ world =>
              (world, .finished .null none))
          | _ + 1 => .running (.finished .null none)
        inbox := [] }
  | .right =>
      { methods := fun name =>
          if name = str "add" then some add else if name = str "sub" then some sub else none
        pendingReq := fun _ => none
        nextId := 0
        world := 0
        loop := .reading
        callers := fun _ => .running (.finished .null none)
        inbox := [] }

theorem calculators_start (method : Text) : links.start (calculators method) := by
  intro s
  cases s with
  | left =>
      refine ⟨rfl, rfl, fun _ => rfl, fun n => ?_⟩
      cases n with
      | zero => exact ⟨_, rfl⟩
      | succ n => exact ⟨_, rfl⟩
  | right => exact ⟨rfl, rfl, fun _ => rfl, fun n => ⟨_, rfl⟩⟩

/-- The request of a call of `add` is on its way, and can be delivered. -/
theorem no_lock_up_add :
    ∃ l : Link Int,
      Lts.Run links HandlersReturn [(.left, .invoke (.caller 0))] l ∧ InFlight l ∧ Enabled l := by
  obtain ⟨l, hrun, hflight⟩ : ∃ l : Link Int,
      Lts.Run links HandlersReturn [(.left, .invoke (.caller 0))] l ∧ InFlight l := by
    refine ⟨_, .step [] (calculators (str "add")) _ (.left, .invoke (.caller 0))
      (.start _ (calculators_start _)) nofun rfl, ?_⟩
    exact ⟨.left, .caller 0, _, ⟨1, by decide⟩, rfl, rfl, Or.inl ⟨_, _, List.mem_singleton.mpr rfl⟩⟩
  exact ⟨l, hrun, hflight, (no_lock_up hrun).1 hflight⟩

/-- The server waits in `sub` for the response to `got_result`, which only its read loop could
take, and the client waits for the response to `sub`. -/
theorem sub_locks_up :
    ¬ ∀ (es : List (Side × Action)) (l : Link Int), Lts.Run links (fun _ _ => True) es l →
      (InFlight l → Enabled l) ∧ (Undelivered l → Enabled l) := by
  intro h
  obtain ⟨l, hrun, hflight, hblocked⟩ : ∃ l : Link Int,
      Lts.Run links (fun _ _ => True) [(.left, .invoke (.caller 0)), (.right, .read),
        (.right, .invoke .readLoop), (.left, .read), (.left, .reply)] l ∧
        InFlight l ∧ ∀ s, (l s).Blocked := by
    have start : Lts.Run links (fun _ _ => True) [] (calculators (str "sub")) :=
      .start _ (calculators_start _)
    have called := Lts.Run.step _ _ _ (Side.left, Action.invoke (.caller 0)) start trivial rfl
    have received := Lts.Run.step _ _ _ (Side.right, Action.read) called trivial rfl
    have emitted := Lts.Run.step _ _ _ (Side.right, Action.invoke .readLoop) received trivial rfl
    have delivered := Lts.Run.step _ _ _ (Side.left, Action.read) emitted trivial rfl
    have replied := Lts.Run.step _ _ _ (Side.left, Action.reply) delivered trivial rfl
    refine ⟨_, replied, ?_, fun s => ?_⟩
    · exact ⟨.right, .readLoop, _, ⟨1, by decide⟩, rfl, rfl,
        Or.inr ⟨_, rfl, List.mem_singleton.mpr rfl⟩⟩
    · cases s with
      | left =>
          refine ⟨Or.inl ⟨rfl, rfl⟩, fun n => ?_⟩
          cases n with
          | zero => exact Or.inl ⟨_, rfl⟩
          | succ n => exact Or.inr ⟨_, _, rfl⟩
      | right => exact ⟨Or.inr (Or.inr ⟨_, _, rfl⟩), fun n => Or.inr ⟨_, _, rfl⟩⟩
  exact not_enabled_of_blocked hblocked ((h _ l hrun).1 hflight)

end BoostRpc.Json
