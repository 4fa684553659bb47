import BoostRpc.Lts

/-!
# Linearizable objects

Callers share an object whose operations take time: an operation begins with its call and ends with
its answer, and calls of different callers overlap. `Linearizes` says that the calls and answers
that are seen go back to operations performed one after the other, each at one point between its
call and its answer. `object` is the system that does just this; `trace_linearizes` says that its
traces are linearizable, and with the rule of simulation so are those of any system that it
simulates. `Linearizes.alone` is the case of a single caller.
-/

namespace Atomic

open Lts

variable {ι Op R S : Type}

/-! ## Histories -/

/-- What is seen of an object. -/
inductive Seen (ι Op R : Type) where
  | call (i : ι) (op : Op)
  | answer (i : ι) (r : R)

def Seen.caller : Seen ι Op R → ι
  | call i _ => i
  | answer i _ => i

/-- What is seen, and the points at which operations are performed. -/
inductive Event (ι Op R : Type) where
  | call (i : ι) (op : Op)
  | perform (i : ι) (op : Op) (r : R)
  | answer (i : ι) (r : R)

namespace Event

def caller : Event ι Op R → ι
  | call i _ => i
  | perform i _ _ => i
  | answer i _ => i

def seen? : Event ι Op R → Option (Seen ι Op R)
  | call i op => some (.call i op)
  | perform _ _ _ => none
  | answer i r => some (.answer i r)

def performed? : Event ι Op R → Option (Op × R)
  | perform _ op r => some (op, r)
  | _ => none

end Event

/-- Where a caller is. -/
inductive Phase (Op R : Type) where
  | idle
  | called (op : Op)
  | performed (r : R)

/-- The events of one caller take turns: a call, the operation that it calls, its answer. -/
inductive Turns : List (Event ι Op R) → Phase Op R → Prop where
  | nil : Turns [] .idle
  | call (es : List (Event ι Op R)) (i : ι) (op : Op) :
      Turns es .idle → Turns (es ++ [.call i op]) (.called op)
  | perform (es : List (Event ι Op R)) (i : ι) (op : Op) (r : R) :
      Turns es (.called op) → Turns (es ++ [.perform i op r]) (.performed r)
  | answer (es : List (Event ι Op R)) (i : ι) (r : R) :
      Turns es (.performed r) → Turns (es ++ [.answer i r]) .idle

/-- The operations, one after the other, have these results. -/
def Legal (apply : Op → S → S × R) : S → List (Op × R) → Prop
  | _, [] => True
  | s, (op, r) :: ops => (apply op s).2 = r ∧ Legal apply (apply op s).1 ops

/-- The object behind some operations. -/
def after (apply : Op → S → S × R) : S → List (Op × R) → S :=
  List.foldl fun s p => (apply p.1 s).1

/-- The history is that of operations performed one after the other, each between its call and its
answer, from one state of the object to another. -/
structure Linearizes [DecidableEq ι] (apply : Op → S → S × R) (s s' : S)
    (h : List (Seen ι Op R)) (es : List (Event ι Op R)) : Prop where
  seen : es.filterMap Event.seen? = h
  turns : ∀ i, ∃ p, Turns (es.filter fun e => e.caller = i) p
  legal : Legal apply s (es.filterMap Event.performed?)
  state : after apply s (es.filterMap Event.performed?) = s'

/-! ## The object as a system -/

/-- An object and its callers. -/
structure Object (ι Op R S : Type) where
  state : S
  phase : ι → Phase Op R

/-- What happens at an object. -/
inductive Act (ι Op : Type) where
  | call (i : ι) (op : Op)
  | perform (i : ι)
  | answer (i : ι)

/-- What is seen of it. -/
def see (o : Object ι Op R S) : Act ι Op → Option (Seen ι Op R)
  | .call i op => some (.call i op)
  | .perform _ => none
  | .answer i =>
      match o.phase i with
      | .performed r => some (.answer i r)
      | _ => none

variable [DecidableEq ι]

/-- One step. -/
def Object.step (apply : Op → S → S × R) (o : Object ι Op R S) :
    Act ι Op → Result (Object ι Op R S)
  | .call i op =>
      match o.phase i with
      | .idle => .next { o with phase := Function.update o.phase i (.called op) }
      | _ => .impossible
  | .perform i =>
      match o.phase i with
      | .called op =>
          let (state, r) := apply op o.state
          .next ⟨state, Function.update o.phase i (.performed r)⟩
      | _ => .impossible
  | .answer i =>
      match o.phase i with
      | .performed _ => .next { o with phase := Function.update o.phase i .idle }
      | _ => .impossible

/-- An object that starts in this state. -/
def object (apply : Op → S → S × R) (s : S) : System (Object ι Op R S) (Act ι Op) where
  start o := o = ⟨s, fun _ => .idle⟩
  step := Object.step apply

variable {apply : Op → S → S × R} {s : S} {o o' : Object ι Op R S} {i : ι}

theorem step_call (h : o.phase i = .idle) (op : Op) :
    (object apply s).step o (.call i op) =
      .next { o with phase := Function.update o.phase i (.called op) } := by
  simp only [object, Object.step, h]

theorem step_perform {op : Op} (h : o.phase i = .called op) :
    (object apply s).step o (.perform i) =
      .next ⟨(apply op o.state).1,
        Function.update o.phase i (.performed (apply op o.state).2)⟩ := by
  simp only [object, Object.step, h]

theorem step_answer {r : R} (h : o.phase i = .performed r) :
    (object apply s).step o (.answer i) =
      .next { o with phase := Function.update o.phase i .idle } := by
  simp only [object, Object.step, h]

omit [DecidableEq ι] in
theorem see_answer {r : R} (h : o.phase i = .performed r) :
    see o (.answer i) = some (.answer i r) := by
  simp only [see, h]

/-! ## Its traces -/

omit [DecidableEq ι] in
theorem legal_append (s : S) (ops : List (Op × R)) (op : Op) :
    Legal apply s (ops ++ [(op, (apply op (after apply s ops)).2)]) ↔ Legal apply s ops := by
  induction ops generalizing s with
  | nil => exact ⟨fun _ => trivial, fun _ => ⟨rfl, trivial⟩⟩
  | cons p ops ih => exact and_congr_right fun _ => ih (apply p.1 s).1

omit [DecidableEq ι] in
theorem legal_of_append {s : S} {ops ops' : List (Op × R)} (h : Legal apply s (ops ++ ops')) :
    Legal apply s ops := by
  induction ops generalizing s with
  | nil => trivial
  | cons p ops ih => exact ⟨h.1, ih h.2⟩

omit [DecidableEq ι] in
theorem after_append (s : S) (ops : List (Op × R)) (op : Op) (r : R) :
    after apply s (ops ++ [(op, r)]) = (apply op (after apply s ops)).1 := by
  rw [after, List.foldl_append]
  rfl

/-- The events of the callers, of which one has a new event. -/
theorem turns_snoc {es : List (Event ι Op R)} {phase : ι → Phase Op R}
    (h : ∀ i, Turns (es.filter fun e => e.caller = i) (phase i)) (e : Event ι Op R) {p : Phase Op R}
    (he : ∀ fs : List (Event ι Op R), Turns fs (phase e.caller) → Turns (fs ++ [e]) p) (i : ι) :
    Turns ((es ++ [e]).filter fun e => e.caller = i) (Function.update phase e.caller p i) := by
  rw [List.filter_append]
  by_cases hi : i = e.caller
  · subst hi
    rw [Function.update_self, List.filter_singleton, decide_eq_true rfl, cond_true]
    exact he _ (h e.caller)
  · rw [Function.update_of_ne hi, List.filter_singleton, decide_eq_false fun heq => hi heq.symm,
      cond_false, List.append_nil]
    exact h i

omit [DecidableEq ι] in
/-- An event at which nothing is performed. -/
theorem performed_snoc {es : List (Event ι Op R)} {e : Event ι Op R} (he : e.performed? = none) :
    (es ++ [e]).filterMap Event.performed? = es.filterMap Event.performed? := by
  rw [List.filterMap_append, List.filterMap_cons_none he, List.filterMap_nil, List.append_nil]

/-- A trace of the object is a linearizable history. -/
theorem trace_linearizes {h : List (Seen ι Op R)}
    (htrace : Trace (object apply s) (fun _ _ => True) see h o) :
    ∃ es, Linearizes apply s o.state h es ∧
      ∀ i, Turns (es.filter fun e => e.caller = i) (o.phase i) := by
  induction htrace with
  | start o ho =>
      obtain rfl := ho
      exact ⟨[], ⟨rfl, fun _ => ⟨.idle, .nil⟩, trivial, rfl⟩, fun _ => .nil⟩
  | step h o o' act _ _ hstep ih =>
      obtain ⟨es, ⟨hseen, -, hlegal, hstate⟩, hturns⟩ := ih
      -- the events go on with one event of the caller of this step
      suffices hgo : ∃ e, Event.seen? e = see o act ∧
          (∀ i, Turns ((es ++ [e]).filter fun e => e.caller = i) (o'.phase i)) ∧
          Legal apply s ((es ++ [e]).filterMap Event.performed?) ∧
          after apply s ((es ++ [e]).filterMap Event.performed?) = o'.state by
        obtain ⟨e, he, hturns', hlegal', hstate'⟩ := hgo
        refine ⟨es ++ [e], ⟨?_, fun i => ⟨_, hturns' i⟩, hlegal', hstate'⟩, hturns'⟩
        rw [List.filterMap_append, hseen, ← he]
        cases e <;> rfl
      cases act with
      | call i op =>
          cases hphase : o.phase i with
          | idle =>
              rw [step_call hphase op] at hstep
              obtain rfl := Result.next.inj hstep
              refine ⟨.call i op, rfl, turns_snoc hturns _ ?_, ?_, ?_⟩
              · intro fs hfs
                exact .call fs i op (hphase ▸ hfs)
              · rwa [performed_snoc rfl]
              · rwa [performed_snoc rfl]
          | called | performed => simp [object, Object.step, hphase] at hstep
      | perform i =>
          cases hphase : o.phase i with
          | called op =>
              rw [step_perform hphase] at hstep
              obtain rfl := Result.next.inj hstep
              refine ⟨.perform i op (apply op o.state).2, rfl, turns_snoc hturns _ ?_, ?_, ?_⟩
              · intro fs hfs
                exact .perform fs i op _ (hphase ▸ hfs)
              · rw [List.filterMap_append, ← hstate]
                exact (legal_append s _ op).mpr hlegal
              · rw [List.filterMap_append, ← hstate]
                exact after_append s _ op _
          | idle | performed => simp [object, Object.step, hphase] at hstep
      | answer i =>
          cases hphase : o.phase i with
          | performed r =>
              rw [step_answer hphase] at hstep
              obtain rfl := Result.next.inj hstep
              refine ⟨.answer i r, (see_answer hphase).symm, turns_snoc hturns _ ?_, ?_, ?_⟩
              · intro fs hfs
                exact .answer fs i r (hphase ▸ hfs)
              · rwa [performed_snoc rfl]
              · rwa [performed_snoc rfl]
          | idle | called => simp [object, Object.step, hphase] at hstep

/-! ## A caller alone -/

section Alone

/-- Calls of one caller, each with its answer behind it. -/
def inTurn (i : ι) (ops : List (Op × R)) : List (Seen ι Op R) :=
  ops.flatMap fun p => [.call i p.1, .answer i p.2]

omit [DecidableEq ι] in
/-- What the events of one caller look like. -/
theorem Turns.shape {es : List (Event ι Op R)} {p : Phase Op R} (h : Turns es p)
    (hi : ∀ e ∈ es, e.caller = i) :
    ∃ ops, match p with
      | .idle => es.filterMap Event.seen? = inTurn i ops ∧ es.filterMap Event.performed? = ops
      | .called op => es.filterMap Event.seen? = inTurn i ops ++ [.call i op] ∧
          es.filterMap Event.performed? = ops
      | .performed r => ∃ op, es.filterMap Event.seen? = inTurn i ops ++ [.call i op] ∧
          es.filterMap Event.performed? = ops ++ [(op, r)] := by
  induction h with
  | nil => exact ⟨[], rfl, rfl⟩
  | call es j op _ ih =>
      obtain ⟨ops, hseen, hops⟩ := ih fun e he => hi e (List.mem_append_left _ he)
      obtain rfl : j = i := hi _ (List.mem_append_right _ List.mem_cons_self)
      refine ⟨ops, ?_, (performed_snoc rfl).trans hops⟩
      rw [List.filterMap_append, hseen]
      rfl
  | perform es j op r _ ih =>
      obtain ⟨ops, hseen, hops⟩ := ih fun e he => hi e (List.mem_append_left _ he)
      refine ⟨ops, op, ?_, ?_⟩
      · rw [List.filterMap_append, hseen]
        exact List.append_nil _
      · rw [List.filterMap_append, hops]
        rfl
  | answer es j r _ ih =>
      obtain ⟨ops, op, hseen, hops⟩ := ih fun e he => hi e (List.mem_append_left _ he)
      obtain rfl : j = i := hi _ (List.mem_append_right _ List.mem_cons_self)
      refine ⟨ops ++ [(op, r)], ?_, (performed_snoc rfl).trans hops⟩
      rw [List.filterMap_append, hseen, inTurn, inTurn, List.flatMap_append, List.append_assoc]
      rfl

omit [DecidableEq ι] in
/-- The first event of a caller is a call. -/
theorem Turns.called {es : List (Event ι Op R)} {p : Phase Op R} (h : Turns es p) :
    (es = [] ∧ p = .idle) ∨ ∃ i op, Event.call i op ∈ es := by
  induction h with
  | nil => exact .inl ⟨rfl, rfl⟩
  | call es i op _ _ => exact .inr ⟨i, op, List.mem_append_right _ List.mem_cons_self⟩
  | perform es i op r _ ih =>
      obtain ⟨-, hp⟩ | ⟨j, op', hmem⟩ := ih
      · cases hp
      · exact .inr ⟨j, op', List.mem_append_left _ hmem⟩
  | answer es i r _ ih =>
      obtain ⟨-, hp⟩ | ⟨j, op, hmem⟩ := ih
      · cases hp
      · exact .inr ⟨j, op, List.mem_append_left _ hmem⟩

/-- The history of a caller alone is that of the operations, one after the other; the last call may
be open. -/
theorem Linearizes.alone {s s' : S} {h : List (Seen ι Op R)}
    {es : List (Event ι Op R)} (hlin : Linearizes apply s s' h es) (hi : ∀ c ∈ h, c.caller = i) :
    ∃ ops, Legal apply s ops ∧ (h = inTurn i ops ∧ after apply s ops = s' ∨
      ∃ op, h = inTurn i ops ++ [.call i op] ∧
        (after apply s ops = s' ∨ (apply op (after apply s ops)).1 = s')) := by
  -- an event of another caller would have a call of its own
  have hcaller : ∀ e ∈ es, e.caller = i := by
    intro e he
    obtain ⟨p, hturns⟩ := hlin.turns e.caller
    have hmem : e ∈ es.filter fun f => f.caller = e.caller :=
      List.mem_filter.mpr ⟨he, decide_eq_true rfl⟩
    obtain ⟨hnil, -⟩ | ⟨j, op, hcall⟩ := hturns.called
    · rw [hnil] at hmem
      exact absurd hmem List.not_mem_nil
    · obtain ⟨hcall, hj⟩ := List.mem_filter.mp hcall
      have hj : j = e.caller := of_decide_eq_true hj
      have hseen : Seen.call j op ∈ h := by
        rw [← hlin.seen]
        exact List.mem_filterMap.mpr ⟨_, hcall, rfl⟩
      exact hj.symm.trans (hi _ hseen)
  obtain ⟨p, hturns⟩ := hlin.turns i
  rw [List.filter_eq_self.mpr fun e he => decide_eq_true (hcaller e he)] at hturns
  obtain ⟨ops, hshape⟩ := hturns.shape hcaller
  have hlegal := hlin.legal
  have hstate := hlin.state
  cases p with
  | idle =>
      obtain ⟨hseen, hops⟩ := hshape
      rw [hops] at hlegal hstate
      exact ⟨ops, hlegal, .inl ⟨hlin.seen.symm.trans hseen, hstate⟩⟩
  | called op =>
      obtain ⟨hseen, hops⟩ := hshape
      rw [hops] at hlegal hstate
      exact ⟨ops, hlegal, .inr ⟨op, hlin.seen.symm.trans hseen, .inl hstate⟩⟩
  | performed r =>
      obtain ⟨op, hseen, hops⟩ := hshape
      rw [hops] at hlegal hstate
      rw [after_append] at hstate
      exact ⟨ops, legal_of_append hlegal, .inr ⟨op, hlin.seen.symm.trans hseen, .inr hstate⟩⟩

end Alone

end Atomic
