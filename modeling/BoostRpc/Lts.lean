import Mathlib.Data.List.Basic

/-!
# Guarded runs of labelled transition systems

A system takes one step for every event. In some states an event is not possible, and in some the
step has no defined result. `Run` collects the runs whose events all meet a guard on the state in
front of them; `Run.invariant` is the rule for what holds in every state of such a run, and
`Run.traced` the rule for what holds of the events and the state behind them. `Throughout` says
that something holds of all steps of a run.

`Trace` keeps what is seen of a run. `Simulation.trace` is the rule of forward simulation: where
every step of one system is matched by some steps of another one of which the same is seen, every
trace of the first is a trace of the second.
-/

namespace Lts

/-- What an event does in a state. -/
inductive Result (S : Type) where
  /-- The event cannot happen in this state. -/
  | impossible
  /-- The event happens and its result is undefined. -/
  | undefined
  | next (s : S)

/-- What a step of a part makes of the whole. -/
def Result.map {S T : Type} (f : S → T) : Result S → Result T
  | .impossible => .impossible
  | .undefined => .undefined
  | .next s => .next (f s)

theorem Result.map_eq_next {S T : Type} {f : S → T} {r : Result S} {t : T} :
    r.map f = .next t ↔ ∃ s, r = .next s ∧ f s = t := by
  cases r with
  | impossible => exact ⟨nofun, fun ⟨_, h, _⟩ => nomatch h⟩
  | undefined => exact ⟨nofun, fun ⟨_, h, _⟩ => nomatch h⟩
  | next s =>
      refine ⟨fun h => ⟨s, rfl, Result.next.inj h⟩, fun ⟨s', hs, hf⟩ => ?_⟩
      rw [Result.next.inj hs]
      exact congrArg Result.next hf

/-- A labelled transition system. -/
structure System (S E : Type) where
  start : S → Prop
  step : S → E → Result S

variable {S E : Type} {sys : System S E} {guard : S → E → Prop} {P : S → Prop}

/-- `Run sys guard es s` says that the events `es` take the system from a start state to `s`, and
that each of them meets the guard. -/
inductive Run (sys : System S E) (guard : S → E → Prop) : List E → S → Prop where
  | start (s : S) : sys.start s → Run sys guard [] s
  | step (es : List E) (s s' : S) (e : E) :
      Run sys guard es s → guard s e → sys.step s e = .next s' → Run sys guard (es ++ [e]) s'

/-- The invariant rule. -/
theorem Run.invariant {es : List E} {s : S} (hstart : ∀ s, sys.start s → P s)
    (hstep : ∀ s e s', P s → guard s e → sys.step s e = .next s' → P s')
    (h : Run sys guard es s) : P s := by
  induction h with
  | start s hs => exact hstart s hs
  | step es s s' e _ hguard hnext ih => exact hstep s e s' ih hguard hnext

/-- The invariant rule for what is said of the events as well. -/
theorem Run.traced {Q : List E → S → Prop} {es : List E} {s : S}
    (hstart : ∀ s, sys.start s → Q [] s)
    (hstep : ∀ es s e s', Q es s → guard s e → sys.step s e = .next s' → Q (es ++ [e]) s')
    (h : Run sys guard es s) : Q es s := by
  induction h with
  | start s hs => exact hstart s hs
  | step es s s' e _ hguard hnext ih => exact hstep es s e s' ih hguard hnext

/-- `Q past s e s'` holds of every step that the events `es` take from a start state: `s` is the
state behind the events `past`, and `e` takes it to `s'`. -/
def Throughout (sys : System S E) (es : List E) (Q : List E → S → E → S → Prop) : Prop :=
  ∀ past e rest s s', es = past ++ e :: rest → Run sys (fun _ _ => True) past s →
    sys.step s e = .next s' → Q past s e s'

/-- What is the same of every step is the same throughout. -/
theorem throughout_congr {Q R : List E → S → E → S → Prop}
    (h : ∀ past s e s', Run sys (fun _ _ => True) past s → sys.step s e = .next s' →
      (Q past s e s' ↔ R past s e s')) (es : List E) :
    Throughout sys es Q ↔ Throughout sys es R := by
  constructor
  · intro hq past e rest s s' hes hrun hstep
    exact (h past s e s' hrun hstep).mp (hq past e rest s s' hes hrun hstep)
  · intro hr past e rest s s' hes hrun hstep
    exact (h past s e s' hrun hstep).mpr (hr past e rest s s' hes hrun hstep)

/-! ## Traces and simulation -/

section Simulation

variable {T F L : Type} {spec : System T F}

/-- `Path sys s es s'` says that the events `es` take the system from `s` to `s'`. -/
inductive Path (sys : System S E) : S → List E → S → Prop where
  | nil (s : S) : Path sys s [] s
  | cons (s s' s'' : S) (e : E) (es : List E) :
      sys.step s e = .next s' → Path sys s' es s'' → Path sys s (e :: es) s''

/-- Events one after the other. -/
theorem Path.append {s s' s'' : S} {es es' : List E} (h : Path sys s es s')
    (h' : Path sys s' es' s'') : Path sys s (es ++ es') s'' := by
  induction h with
  | nil s => exact h'
  | cons s t s' e es hstep _ ih => exact .cons s t s'' e (es ++ es') hstep (ih h')

/-- One event. -/
theorem Path.single {s s' : S} {e : E} (h : sys.step s e = .next s') : Path sys s [e] s' :=
  .cons s s' s' e [] h (.nil s')

/-- The invariant rule for events. -/
theorem Path.invariant (guard : E → Prop) {s s' : S} {es : List E}
    (hstep : ∀ s e s', P s → guard e → sys.step s e = .next s' → P s')
    (h : Path sys s es s') (hes : ∀ e ∈ es, guard e) (hs : P s) : P s' := by
  induction h with
  | nil s => exact hs
  | cons s t s' e es hnext _ ih =>
      exact ih (fun e' he' => hes e' (List.mem_cons_of_mem e he'))
        (hstep s e t hs (hes e List.mem_cons_self) hnext)

/-- Where every event makes a measure smaller, the events come to an end. -/
theorem Path.bounded (guard : E → Prop) {m : S → Nat} {s s' : S} {es : List E}
    (hstep : ∀ s e s', P s → guard e → sys.step s e = .next s' → P s' ∧ m s' < m s)
    (h : Path sys s es s') (hes : ∀ e ∈ es, guard e) (hs : P s) :
    es.length + m s' ≤ m s ∧ P s' := by
  induction h with
  | nil s => exact ⟨Nat.le_of_eq (Nat.zero_add _), hs⟩
  | cons s t s' e es hnext _ ih =>
      obtain ⟨ht, hless⟩ := hstep s e t hs (hes e List.mem_cons_self) hnext
      obtain ⟨hbound, hs'⟩ := ih (fun e' he' => hes e' (List.mem_cons_of_mem e he')) ht
      refine ⟨?_, hs'⟩
      rw [List.length_cons]
      omega

/-- What is seen of some events. -/
def sees (sys : System S E) (see : S → E → Option L) : S → List E → List L
  | _, [] => []
  | s, e :: es =>
      match sys.step s e with
      | .next s' => (see s e).toList ++ sees sys see s' es
      | _ => []

/-- `Trace sys guard see l s` says that `l` is seen of a run whose events meet the guard and that
the run leads to `s`. -/
inductive Trace (sys : System S E) (guard : S → E → Prop) (see : S → E → Option L) :
    List L → S → Prop where
  | start (s : S) : sys.start s → Trace sys guard see [] s
  | step (l : List L) (s s' : S) (e : E) :
      Trace sys guard see l s → guard s e → sys.step s e = .next s' →
      Trace sys guard see (l ++ (see s e).toList) s'

/-- A run has a trace. -/
theorem Run.trace {es : List E} {s : S} (h : Run sys guard es s) (see : S → E → Option L) :
    ∃ l, Trace sys guard see l s := by
  induction h with
  | start s hs => exact ⟨[], .start s hs⟩
  | step es s s' e _ hguard hstep ih =>
      obtain ⟨l, hl⟩ := ih
      exact ⟨_, .step l s s' e hl hguard hstep⟩

/-- The invariant rule for traces. -/
theorem Trace.invariant {see : S → E → Option L} {l : List L} {s : S}
    (hstart : ∀ s, sys.start s → P s)
    (hstep : ∀ s e s', P s → guard s e → sys.step s e = .next s' → P s')
    (h : Trace sys guard see l s) : P s := by
  induction h with
  | start s hs => exact hstart s hs
  | step l s s' e _ hguard hnext ih => exact hstep s e s' ih hguard hnext

/-- The invariant rule for what is said of the trace as well. -/
theorem Trace.traced {Q : List L → S → Prop} {see : S → E → Option L} {l : List L} {s : S}
    (hstart : ∀ s, sys.start s → Q [] s)
    (hstep : ∀ l s e s', Q l s → guard s e → sys.step s e = .next s' →
      Q (l ++ (see s e).toList) s')
    (h : Trace sys guard see l s) : Q l s := by
  induction h with
  | start s hs => exact hstart s hs
  | step l s s' e _ hguard hnext ih => exact hstep l s e s' ih hguard hnext

/-- The rule for a channel that keeps the order: what has been taken from it and what is left are
what it held and what has been put into it. -/
theorem Trace.fifo {α : Type} {see : S → E → Option L} (queue : S → List α) (put take : L → List α)
    (held : List α) {l : List L} {s : S} (hstart : ∀ s, sys.start s → P s ∧ queue s = held)
    (hstep : ∀ s e s', P s → guard s e → sys.step s e = .next s' → P s' ∧
      (see s e).toList.flatMap take ++ queue s' = queue s ++ (see s e).toList.flatMap put)
    (h : Trace sys guard see l s) :
    P s ∧ l.flatMap take ++ queue s = held ++ l.flatMap put := by
  induction h with
  | start s hs =>
      obtain ⟨hP, hqueue⟩ := hstart s hs
      exact ⟨hP, hqueue.trans (List.append_nil held).symm⟩
  | step l s s' e _ hguard hnext ih =>
      obtain ⟨hP, hqueue⟩ := hstep s e s' ih.1 hguard hnext
      refine ⟨hP, ?_⟩
      calc (l ++ (see s e).toList).flatMap take ++ queue s'
          = l.flatMap take ++ ((see s e).toList.flatMap take ++ queue s') := by
            rw [List.flatMap_append, List.append_assoc]
        _ = (l.flatMap take ++ queue s) ++ (see s e).toList.flatMap put := by
            rw [hqueue, List.append_assoc]
        _ = held ++ (l ++ (see s e).toList).flatMap put := by
            rw [ih.2, List.flatMap_append, List.append_assoc]

/-- Events that need no guard prolong a trace by what is seen of them. -/
theorem Trace.path {see : S → E → Option L} {l : List L} {s s' : S} {es : List E}
    (h : Trace sys (fun _ _ => True) see l s) (hpath : Path sys s es s') :
    Trace sys (fun _ _ => True) see (l ++ sees sys see s es) s' := by
  induction hpath generalizing l with
  | nil s => rwa [sees, List.append_nil]
  | cons s t s' e es hstep _ ih =>
      have hnext := ih (.step l s t e h trivial hstep)
      rw [List.append_assoc] at hnext
      simp only [sees, hstep]
      exact hnext

/-- Every step of a system is matched by some steps of another one, of which the same is seen. -/
structure Simulation (sys : System S E) (guard : S → E → Prop) (see : S → E → Option L)
    (spec : System T F) (see' : T → F → Option L) (R : S → T → Prop) : Prop where
  start : ∀ s, sys.start s → ∃ t, spec.start t ∧ R s t
  step : ∀ s t e s', R s t → guard s e → sys.step s e = .next s' →
    ∃ fs t', Path spec t fs t' ∧ sees spec see' t fs = (see s e).toList ∧ R s' t'

/-- The rule of forward simulation. -/
theorem Simulation.trace {see : S → E → Option L} {see' : T → F → Option L} {R : S → T → Prop}
    (h : Simulation sys guard see spec see' R) {l : List L} {s : S}
    (htrace : Trace sys guard see l s) :
    ∃ t, Trace spec (fun _ _ => True) see' l t ∧ R s t := by
  induction htrace with
  | start s hs =>
      obtain ⟨t, ht, hR⟩ := h.start s hs
      exact ⟨t, .start t ht, hR⟩
  | step l s s' e _ hguard hstep ih =>
      obtain ⟨t, htrace, hR⟩ := ih
      obtain ⟨fs, t', hpath, hsees, hR'⟩ := h.step s t e s' hR hguard hstep
      exact ⟨t', hsees ▸ htrace.path hpath, hR'⟩

end Simulation

end Lts
