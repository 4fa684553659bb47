import Mathlib.Data.List.Basic
import Mathlib.Data.List.TakeWhile
import Mathlib.Tactic.Common

/-!
# Parsing-expression combinators

A parser over an arbitrary token type takes the remaining input to a value and what it leaves
of the input, or fails. The combinators have the semantics of parsing expression grammars:
`alt` is ordered choice, `many` is greedy and never gives back what it took, a sequence that
fails consumes nothing. `fix` ties the knot of a recursive grammar; `fix_eq` says that it is a
fixed point of every `Guarded` grammar body, so the bound on its recursion never shows.

`Derives Q p` is the rule format for what a parser accepts: every success of `p` took a prefix of
its input that `Q` relates to its result. In `Consumes Q p` the result does not matter.
-/

namespace Peg

variable {τ α β γ : Type}

/-- A parser takes the remaining input to a value and what it leaves of the input, or fails. -/
abbrev Parser (τ α : Type) := List τ → Option (α × List τ)

/-- The parser that fails on every input. -/
def fail : Parser τ α := fun _ => none

/-- The parser that succeeds on every input and consumes nothing. -/
def eps : Parser τ Unit := fun input => some ((), input)

/-- One token with the property `test`. -/
def satisfy (test : τ → Bool) : Parser τ τ
  | [] => none
  | c :: rest => if test c then some (c, rest) else none

/-- `p`, with `f` applied to its value. -/
def map (f : α → β) (p : Parser τ α) : Parser τ β :=
  fun input => (p input).map fun (a, rest) => (f a, rest)

/-- `p` and then `q`. -/
def seq (p : Parser τ α) (q : Parser τ β) : Parser τ (α × β) := fun input =>
  match p input with
  | none => none
  | some (a, middle) =>
    match q middle with
    | none => none
    | some (b, rest) => some ((a, b), rest)

/-- `p`, or `q` where `p` fails. -/
def alt (p q : Parser τ α) : Parser τ α := fun input =>
  match p input with
  | some result => some result
  | none => q input

/-- `p` after the longest prefix of tokens with the property `space`. -/
def skipping (space : τ → Bool) (p : Parser τ α) : Parser τ α :=
  fun input => p (input.dropWhile space)

/-- At most `fuel` times `p`, as often as it succeeds. -/
def manyUpTo (p : Parser τ α) : Nat → List τ → List α × List τ
  | 0, input => ([], input)
  | fuel + 1, input =>
    match p input with
    | none => ([], input)
    | some (a, rest) => ((a :: (manyUpTo p fuel rest).1), (manyUpTo p fuel rest).2)

/-- As often as possible `p`: it never fails and never tries again. -/
def many (p : Parser τ α) : Parser τ (List α) := fun input => some (manyUpTo p input.length input)

/-- One or more `p`, separated by `separator`; a separator with no `p` behind it is not taken. -/
def list (p : Parser τ α) (separator : Parser τ β) : Parser τ (List α) :=
  map (fun (first, rest) => first :: rest)
    (seq p (many (map Prod.snd (seq separator p))))

/-- The rest of the input behind `key`, where the input begins with `key`. -/
def stripPrefix [DecidableEq τ] : List τ → List τ → Option (List τ)
  | [], input => some input
  | _ :: _, [] => none
  | k :: key, c :: input => if k = c then stripPrefix key input else none

/-- The tokens `key`, one after the other. -/
def literal [DecidableEq τ] (key : List τ) : Parser τ Unit :=
  fun input => (stripPrefix key input).map fun rest => ((), rest)

/-- The longest key of the table with which the input begins. -/
def symbols [DecidableEq τ] : List (List τ × α) → Parser τ α
  | [], _ => none
  | (key, a) :: table, input =>
    match stripPrefix key input, symbols table input with
    | none, other => other
    | some rest, none => some (a, rest)
    | some rest, some (b, shorter) =>
      if shorter.length < rest.length then some (b, shorter) else some (a, rest)

/-! ## How much of the input is left -/

/-- What `p` leaves is never longer than its input. -/
def NonGrowing (p : Parser τ α) : Prop :=
  ∀ input a rest, p input = some (a, rest) → rest.length ≤ input.length

/-- What `p` leaves is always shorter than its input. -/
def Progresses (p : Parser τ α) : Prop :=
  ∀ input a rest, p input = some (a, rest) → rest.length < input.length

theorem Progresses.non_growing {p : Parser τ α} (h : Progresses p) : NonGrowing p :=
  fun input a rest he => Nat.le_of_lt (h input a rest he)

theorem fail_non_growing : NonGrowing (fail : Parser τ α) := by
  intro input a rest h
  exact absurd h (by simp [fail])

theorem eps_non_growing : NonGrowing (eps : Parser τ Unit) := by
  intro input a rest h
  obtain ⟨-, rfl⟩ := Prod.mk.inj (Option.some.inj h)
  exact Nat.le_refl _

theorem satisfy_progresses (test : τ → Bool) : Progresses (satisfy test) := by
  intro input a rest h
  cases input with
  | nil => exact absurd h (by simp [satisfy])
  | cons c input =>
      simp only [satisfy] at h
      split at h
      · obtain ⟨-, rfl⟩ := Prod.mk.inj (Option.some.inj h)
        simp
      · exact absurd h (by simp)

/-- A success of `map f p` is a success of `p`. -/
theorem map_eq_some {f : α → β} {p : Parser τ α} {input rest : List τ} {b : β}
    (h : map f p input = some (b, rest)) : ∃ a, p input = some (a, rest) ∧ f a = b := by
  simp only [map, Option.map_eq_some_iff, Prod.mk.injEq, Prod.exists] at h
  obtain ⟨a, middle, hp, rfl, rfl⟩ := h
  exact ⟨a, hp, rfl⟩

/-- A success of `seq p q` is a success of `p` and then of `q`. -/
theorem seq_eq_some {p : Parser τ α} {q : Parser τ β} {input rest : List τ} {ab : α × β}
    (h : seq p q input = some (ab, rest)) :
    ∃ middle, p input = some (ab.1, middle) ∧ q middle = some (ab.2, rest) := by
  unfold seq at h
  split at h
  · exact absurd h (by simp)
  · rename_i a middle hp
    split at h
    · exact absurd h (by simp)
    · rename_i b rest' hq
      obtain ⟨rfl, rfl⟩ := Prod.mk.inj (Option.some.inj h)
      exact ⟨middle, hp, hq⟩

/-- A success of `alt p q` is a success of `p`, or of `q` where `p` fails. -/
theorem alt_eq_some {p q : Parser τ α} {input rest : List τ} {a : α}
    (h : alt p q input = some (a, rest)) :
    p input = some (a, rest) ∨ (p input = none ∧ q input = some (a, rest)) := by
  unfold alt at h
  split at h
  · rename_i result hp
    exact Or.inl (hp.trans h)
  · rename_i hp
    exact Or.inr ⟨hp, h⟩

theorem map_non_growing {f : α → β} {p : Parser τ α} (h : NonGrowing p) :
    NonGrowing (map f p) := by
  intro input b rest hm
  obtain ⟨a, hp, -⟩ := map_eq_some hm
  exact h input a rest hp

theorem map_progresses {f : α → β} {p : Parser τ α} (h : Progresses p) :
    Progresses (map f p) := by
  intro input b rest hm
  obtain ⟨a, hp, -⟩ := map_eq_some hm
  exact h input a rest hp

theorem seq_non_growing {p : Parser τ α} {q : Parser τ β} (hp : NonGrowing p)
    (hq : NonGrowing q) : NonGrowing (seq p q) := by
  intro input ab rest h
  obtain ⟨middle, h1, h2⟩ := seq_eq_some h
  exact Nat.le_trans (hq _ _ _ h2) (hp _ _ _ h1)

/-- A sequence makes progress where its first part does. -/
theorem seq_progresses {p : Parser τ α} {q : Parser τ β} (hp : Progresses p)
    (hq : NonGrowing q) : Progresses (seq p q) := by
  intro input ab rest h
  obtain ⟨middle, h1, h2⟩ := seq_eq_some h
  exact Nat.lt_of_le_of_lt (hq _ _ _ h2) (hp _ _ _ h1)

theorem alt_non_growing {p q : Parser τ α} (hp : NonGrowing p) (hq : NonGrowing q) :
    NonGrowing (alt p q) := by
  intro input a rest h
  rcases alt_eq_some h with h | ⟨-, h⟩
  · exact hp _ _ _ h
  · exact hq _ _ _ h

theorem skipping_non_growing {space : τ → Bool} {p : Parser τ α} (h : NonGrowing p) :
    NonGrowing (skipping space p) := fun _ a rest hs =>
  Nat.le_trans (h _ a rest hs) (List.dropWhile_suffix space).length_le

theorem skipping_progresses {space : τ → Bool} {p : Parser τ α} (h : Progresses p) :
    Progresses (skipping space p) := fun _ a rest hs =>
  Nat.lt_of_lt_of_le (h _ a rest hs) (List.dropWhile_suffix space).length_le

theorem many_up_to_length {p : Parser τ α} (h : NonGrowing p) (fuel : Nat) (input : List τ) :
    (manyUpTo p fuel input).2.length ≤ input.length := by
  induction fuel generalizing input with
  | zero => exact Nat.le_refl _
  | succ fuel ih =>
      unfold manyUpTo
      split
      · exact Nat.le_refl _
      · rename_i a rest hp
        exact Nat.le_trans (ih rest) (h _ _ _ hp)

theorem many_non_growing {p : Parser τ α} (h : NonGrowing p) : NonGrowing (many p) := by
  intro input as rest hm
  have hrest : (manyUpTo p input.length input).2 = rest := congrArg Prod.snd (Option.some.inj hm)
  exact hrest ▸ many_up_to_length h input.length input

/-- `stripPrefix` finds the key in front of what it returns. -/
theorem strip_prefix_eq_some [DecidableEq τ] {key input rest : List τ}
    (h : stripPrefix key input = some rest) : input = key ++ rest := by
  induction key generalizing input with
  | nil => exact Option.some.inj h
  | cons k key ih =>
      cases input with
      | nil => exact absurd h (by simp [stripPrefix])
      | cons c input =>
          simp only [stripPrefix] at h
          split at h
          · rename_i hk
            rw [hk, ih h, List.cons_append]
          · exact absurd h (by simp)

/-- A symbol table takes one of its keys off the input. -/
theorem symbols_eq_some [DecidableEq τ] {table : List (List τ × α)} {input rest : List τ} {a : α}
    (h : symbols table input = some (a, rest)) : ∃ key, (key, a) ∈ table ∧ input = key ++ rest := by
  induction table generalizing a rest with
  | nil => exact absurd h (by simp [symbols])
  | cons entry table ih =>
      obtain ⟨key, b⟩ := entry
      have later : symbols table input = some (a, rest) →
          ∃ key', (key', a) ∈ (key, b) :: table ∧ input = key' ++ rest := by
        intro ht
        obtain ⟨key', hmem, hin⟩ := ih ht
        exact ⟨key', List.mem_cons_of_mem _ hmem, hin⟩
      have here : stripPrefix key input = some rest → b = a →
          ∃ key', (key', a) ∈ (key, b) :: table ∧ input = key' ++ rest := by
        rintro hk rfl
        exact ⟨key, List.mem_cons_self, strip_prefix_eq_some hk⟩
      simp only [symbols] at h
      split at h
      · exact later h
      · rename_i rest' hk hnone
        obtain ⟨hb, rfl⟩ := Prod.mk.inj (Option.some.inj h)
        exact here hk hb
      · rename_i rest' b' shorter hk hsome
        split at h
        · exact later (hsome.trans h)
        · obtain ⟨hb, rfl⟩ := Prod.mk.inj (Option.some.inj h)
          exact here hk hb

/-! ## Recursive grammars -/

/-- `body` applied to itself `depth` times, failing below that. -/
def iterate (body : Parser τ α → Parser τ α) : Nat → Parser τ α
  | 0 => fail
  | depth + 1 => body (iterate body depth)

/-- The parser that the recursive definition `p = body p` stands for. Every level of the
recursion of a guarded body has a shorter input, so one more level than the input has tokens is
enough (`fix_eq`). -/
def fix (body : Parser τ α → Parser τ α) : Parser τ α :=
  fun input => iterate body (input.length + 1) input

/-- `body` calls the parser it is given on no longer input than its own. -/
structure Local (body : Parser τ α → Parser τ β) : Prop where
  /-- A body of a parser that does not grow its input does not grow it either. -/
  non_growing : ∀ p, NonGrowing p → NonGrowing (body p)
  /-- The result depends on the given parser at no longer input only. -/
  congr : ∀ p q, NonGrowing p → NonGrowing q → ∀ input,
    (∀ shorter, shorter.length ≤ input.length → p shorter = q shorter) → body p input = body q input

/-- `body` calls the parser it is given on strictly shorter input than its own. -/
structure Guarded (body : Parser τ α → Parser τ β) : Prop where
  /-- A body of a parser that does not grow its input does not grow it either. -/
  non_growing : ∀ p, NonGrowing p → NonGrowing (body p)
  /-- The result depends on the given parser at strictly shorter input only. -/
  congr : ∀ p q, NonGrowing p → NonGrowing q → ∀ input,
    (∀ shorter, shorter.length < input.length → p shorter = q shorter) → body p input = body q input

section FixedPoint

variable {body : Parser τ α → Parser τ α}

theorem iterate_non_growing (h : Guarded body) (depth : Nat) :
    NonGrowing (iterate body depth) := by
  induction depth with
  | zero => exact fail_non_growing
  | succ depth ih => exact h.non_growing _ ih

/-- Past the length of the input the recursion depth makes no difference. -/
theorem iterate_stable (h : Guarded body) {first second : Nat} {input : List τ}
    (hfirst : input.length < first) (hsecond : input.length < second) :
    iterate body first input = iterate body second input := by
  induction first generalizing second input with
  | zero => exact absurd hfirst (Nat.not_lt_zero _)
  | succ first ih =>
      cases second with
      | zero => exact absurd hsecond (Nat.not_lt_zero _)
      | succ second =>
          refine h.congr _ _ (iterate_non_growing h _) (iterate_non_growing h _) input ?_
          intro shorter hshorter
          exact ih (by omega) (by omega)

theorem fix_non_growing (h : Guarded body) : NonGrowing (fix body) :=
  fun input a rest => iterate_non_growing h (input.length + 1) input a rest

/-- `fix body` is a fixed point of `body`. -/
theorem fix_eq (h : Guarded body) (input : List τ) : fix body input = body (fix body) input := by
  refine h.congr _ _ (iterate_non_growing h _) (fix_non_growing h) input ?_
  intro shorter hshorter
  exact iterate_stable h hshorter (Nat.lt_succ_self _)

end FixedPoint

/-! ## Guardedness of the combinators -/

theorem Guarded.isLocal {body : Parser τ α → Parser τ β} (h : Guarded body) : Local body :=
  ⟨h.non_growing, fun p q hp hq input hagree =>
    h.congr p q hp hq input fun shorter hs => hagree shorter (Nat.le_of_lt hs)⟩

theorem Guarded.const {p : Parser τ β} (h : NonGrowing p) :
    Guarded fun _ : Parser τ α => p :=
  ⟨fun _ _ => h, fun _ _ _ _ _ _ => rfl⟩

theorem Local.id : Local fun p : Parser τ α => p :=
  ⟨fun _ h => h, fun _ _ _ _ _ hagree => hagree _ (Nat.le_refl _)⟩

theorem Guarded.map {f : β → γ} {body : Parser τ α → Parser τ β} (h : Guarded body) :
    Guarded fun p => map f (body p) :=
  ⟨fun p hp => map_non_growing (h.non_growing p hp), fun p q hp hq input hagree => by
    simp only [Peg.map, h.congr p q hp hq input hagree]⟩

theorem Local.map {f : β → γ} {body : Parser τ α → Parser τ β} (h : Local body) :
    Local fun p => map f (body p) :=
  ⟨fun p hp => map_non_growing (h.non_growing p hp), fun p q hp hq input hagree => by
    simp only [Peg.map, h.congr p q hp hq input hagree]⟩

theorem Guarded.alt {first second : Parser τ α → Parser τ β} (hf : Guarded first)
    (hs : Guarded second) : Guarded fun p => alt (first p) (second p) :=
  ⟨fun p hp => alt_non_growing (hf.non_growing p hp) (hs.non_growing p hp),
    fun p q hp hq input hagree => by
      simp only [Peg.alt, hf.congr p q hp hq input hagree, hs.congr p q hp hq input hagree]⟩

/-- Two sequences agree where their first parts do and their second parts do on what the first
parts leave. -/
theorem seq_congr {p p' : Parser τ α} {q q' : Parser τ β} {input : List τ}
    (hp : p input = p' input)
    (hq : ∀ a middle, p' input = some (a, middle) → q middle = q' middle) :
    seq p q input = seq p' q' input := by
  simp only [seq, hp]
  cases h : p' input with
  | none => rfl
  | some result => simp only [hq result.1 result.2 h]

theorem Local.seq {first : Parser τ α → Parser τ β} {second : Parser τ α → Parser τ γ}
    (hf : Local first) (hs : Local second) : Local fun p => seq (first p) (second p) := by
  refine ⟨fun p hp => seq_non_growing (hf.non_growing p hp) (hs.non_growing p hp), ?_⟩
  intro p q hp hq input hagree
  refine seq_congr (hf.congr p q hp hq input hagree) fun a middle hm => ?_
  have hle := hf.non_growing q hq input a middle hm
  exact hs.congr p q hp hq middle fun shorter hshorter => hagree shorter (by omega)

/-- A sequence is guarded where its first part consumes a token before the recursion. -/
theorem Guarded.seq {first : Parser τ β} {second : Parser τ α → Parser τ γ}
    (hf : Progresses first) (hs : Local second) : Guarded fun p => seq first (second p) := by
  refine ⟨fun p hp => seq_non_growing hf.non_growing (hs.non_growing p hp), ?_⟩
  intro p q hp hq input hagree
  refine seq_congr rfl fun a middle hm => ?_
  have hlt := hf input a middle hm
  exact hs.congr p q hp hq middle fun shorter hshorter => hagree shorter (by omega)

theorem many_up_to_congr {p q : Parser τ α} (hq : NonGrowing q) (fuel : Nat) (input : List τ)
    (hagree : ∀ shorter, shorter.length ≤ input.length → p shorter = q shorter) :
    manyUpTo p fuel input = manyUpTo q fuel input := by
  induction fuel generalizing input with
  | zero => rfl
  | succ fuel ih =>
      simp only [manyUpTo, hagree input (Nat.le_refl _)]
      cases h : q input with
      | none => rfl
      | some result =>
          have hle := hq input result.1 result.2 h
          simp only [ih result.2 fun shorter hs => hagree shorter (by omega)]

theorem Local.many {body : Parser τ α → Parser τ β} (h : Local body) :
    Local fun p => many (body p) := by
  refine ⟨fun p hp => many_non_growing (h.non_growing p hp), ?_⟩
  intro p q hp hq input hagree
  refine congrArg some (many_up_to_congr (h.non_growing q hq) _ _ fun shorter hs => ?_)
  exact h.congr p q hp hq shorter fun shorter' hs' => hagree shorter' (by omega)

theorem Local.list {body : Parser τ α → Parser τ β} {separator : Parser τ γ} (h : Local body)
    (hs : NonGrowing separator) : Local fun p => list (body p) separator :=
  (h.seq (((Guarded.const hs).isLocal.seq h).map.many)).map

/-! ## Repetition -/

theorem many_up_to_stable {p : Parser τ α} (h : Progresses p) {first second : Nat}
    {input : List τ} (hfirst : input.length ≤ first) (hsecond : input.length ≤ second) :
    manyUpTo p first input = manyUpTo p second input := by
  induction first generalizing second input with
  | zero =>
      cases second with
      | zero => rfl
      | succ second =>
          cases hp : p input with
          | none => simp [manyUpTo, hp]
          | some result => exact absurd (h _ _ _ hp) (by omega)
  | succ first ih =>
      cases hp : p input with
      | none => cases second <;> simp [manyUpTo, hp]
      | some result =>
          have hlt := h input result.1 result.2 hp
          cases second with
          | zero => omega
          | succ second =>
              simp only [manyUpTo, hp]
              rw [ih (show result.2.length ≤ first by omega)
                (show result.2.length ≤ second by omega)]

/-- Where `p` fails, `many p` takes nothing. -/
theorem many_none {p : Parser τ α} {input : List τ} (h : p input = none) :
    many p input = some ([], input) := by
  unfold many
  cases input.length <;> simp [manyUpTo, h]

/-- Where `p` succeeds, `many p` goes on behind it. -/
theorem many_some {p : Parser τ α} (hp : Progresses p) {input middle rest : List τ} {a : α}
    {as : List α} (h : p input = some (a, middle)) (hrest : many p middle = some (as, rest)) :
    many p input = some (a :: as, rest) := by
  have hlt := hp input a middle h
  have hmany : manyUpTo p middle.length middle = (as, rest) := Option.some.inj hrest
  obtain ⟨n, hn⟩ : ∃ n, input.length = n + 1 := ⟨input.length - 1, by omega⟩
  have hstable : manyUpTo p n middle = manyUpTo p middle.length middle :=
    many_up_to_stable hp (by omega) (Nat.le_refl _)
  simp only [many, hn, manyUpTo, h, hstable, hmany]

/-- `p` followed by the separated repetitions of `list`. -/
theorem list_some {p : Parser τ α} {separator : Parser τ β} {input middle rest : List τ} {a : α}
    {as : List α} (h : p input = some (a, middle))
    (hrest : many (map Prod.snd (seq separator p)) middle = some (as, rest)) :
    list p separator input = some (a :: as, rest) := by
  have hseq : seq p (many (map Prod.snd (seq separator p))) input = some ((a, as), rest) := by
    simp only [seq, h, hrest]
  simp only [list, map, hseq, Option.map_some]

/-- A separator in front of a list makes a repetition of separated pieces. -/
theorem many_of_list {p : Parser τ α} {separator : Parser τ β} (hs : Progresses separator)
    (hp : NonGrowing p) {input middle rest : List τ} {b : β} {as : List α}
    (h : separator input = some (b, middle)) (hlist : list p separator middle = some (as, rest)) :
    many (map Prod.snd (seq separator p)) input = some (as, rest) := by
  obtain ⟨⟨first, others⟩, hseq, rfl⟩ := map_eq_some hlist
  obtain ⟨behind, hfirst, hothers⟩ := seq_eq_some hseq
  refine many_some (map_progresses (seq_progresses hs hp)) ?_ hothers
  simp only [map, seq, h, hfirst, Option.map_some]

/-! ## What a success consumes -/

/-- Every success of `p` took a prefix of its input that `Q` relates to its result. -/
def Derives (Q : α → List τ → Prop) (p : Parser τ α) : Prop :=
  ∀ input a rest, p input = some (a, rest) → ∃ taken, input = taken ++ rest ∧ Q a taken

/-- Every success of `p` took a prefix of its input with the property `Q`. -/
def Consumes (Q : List τ → Prop) (p : Parser τ α) : Prop :=
  ∀ input a rest, p input = some (a, rest) → ∃ taken, input = taken ++ rest ∧ Q taken

section Derivation

variable {Q : α → List τ → Prop} {R : β → List τ → Prop} {S : γ → List τ → Prop}

theorem Derives.mono {Q' : α → List τ → Prop} {p : Parser τ α} (h : Derives Q p)
    (hQ : ∀ a taken, Q a taken → Q' a taken) : Derives Q' p := by
  intro input a rest hp
  obtain ⟨taken, hin, hq⟩ := h input a rest hp
  exact ⟨taken, hin, hQ a taken hq⟩

theorem Derives.satisfy {Q : τ → List τ → Prop} {test : τ → Bool}
    (h : ∀ c, test c = true → Q c [c]) : Derives Q (satisfy test) := by
  intro input a rest hp
  cases input with
  | nil => exact absurd hp (by simp [Peg.satisfy])
  | cons c input =>
      simp only [Peg.satisfy] at hp
      split at hp
      · rename_i hc
        obtain ⟨rfl, rfl⟩ := Prod.mk.inj (Option.some.inj hp)
        exact ⟨[c], rfl, h c hc⟩
      · exact absurd hp (by simp)

theorem Derives.eps {Q : Unit → List τ → Prop} (h : Q () []) :
    Derives Q (eps : Parser τ Unit) := by
  intro input a rest hp
  obtain ⟨-, rfl⟩ := Prod.mk.inj (Option.some.inj hp)
  exact ⟨[], rfl, h⟩

theorem Derives.symbols [DecidableEq τ] {table : List (List τ × α)}
    (h : ∀ entry ∈ table, Q entry.2 entry.1) : Derives Q (symbols table) := by
  intro input a rest hp
  obtain ⟨key, hmem, hin⟩ := symbols_eq_some hp
  exact ⟨key, hin, h _ hmem⟩

theorem Derives.literal [DecidableEq τ] {Q : Unit → List τ → Prop} {key : List τ}
    (h : Q () key) : Derives Q (literal key) := by
  intro input a rest hp
  simp only [Peg.literal, Option.map_eq_some_iff, Prod.mk.injEq] at hp
  obtain ⟨rest', hk, -, rfl⟩ := hp
  exact ⟨key, strip_prefix_eq_some hk, h⟩

theorem Derives.map {f : α → β} {p : Parser τ α} (h : Derives (fun a => R (f a)) p) :
    Derives R (map f p) := by
  intro input b rest hp
  obtain ⟨a, ha, rfl⟩ := map_eq_some hp
  exact h input a rest ha

theorem Derives.alt {p q : Parser τ α} (hp : Derives Q p) (hq : Derives Q q) :
    Derives Q (alt p q) := by
  intro input a rest h
  rcases alt_eq_some h with h | ⟨-, h⟩
  · exact hp input a rest h
  · exact hq input a rest h

/-- The rule for sequences: the parts take one behind the other. -/
theorem Derives.seq {S : α × β → List τ → Prop} {p : Parser τ α} {q : Parser τ β}
    (hp : Derives Q p) (hq : Derives R q)
    (happend : ∀ a b s t, Q a s → R b t → S (a, b) (s ++ t)) : Derives S (seq p q) := by
  intro input ab rest h
  obtain ⟨middle, h1, h2⟩ := seq_eq_some h
  obtain ⟨s, rfl, hs⟩ := hp input ab.1 middle h1
  obtain ⟨t, rfl, ht⟩ := hq middle ab.2 rest h2
  exact ⟨s ++ t, (List.append_assoc s t rest).symm, happend ab.1 ab.2 s t hs ht⟩

/-- The rule for repetition: `S` holds of nothing and of one more piece. -/
theorem Derives.many {S : List α → List τ → Prop} {p : Parser τ α} (hp : Derives Q p)
    (hnil : S [] []) (happend : ∀ a as s t, Q a s → S as t → S (a :: as) (s ++ t)) :
    Derives S (many p) := by
  have pieces : ∀ fuel input, ∃ taken, input = taken ++ (manyUpTo p fuel input).2 ∧
      S (manyUpTo p fuel input).1 taken := by
    intro fuel
    induction fuel with
    | zero => exact fun input => ⟨[], rfl, hnil⟩
    | succ fuel ih =>
        intro input
        cases h : p input with
        | none => exact ⟨[], by simp [manyUpTo, h], by simpa [manyUpTo, h] using hnil⟩
        | some result =>
            obtain ⟨s, hs, hq⟩ := hp input result.1 result.2 h
            obtain ⟨t, ht, hqt⟩ := ih result.2
            refine ⟨s ++ t, ?_, ?_⟩
            · simp only [manyUpTo, h, List.append_assoc, ← ht]
              exact hs
            · simp only [manyUpTo, h]
              exact happend result.1 _ s t hq hqt
  intro input as rest h
  obtain ⟨taken, hin, hq⟩ := pieces input.length input
  obtain ⟨hresult, hrest⟩ := Prod.mk.inj (Option.some.inj h)
  exact ⟨taken, hrest ▸ hin, hresult ▸ hq⟩

/-- The rule for separated lists. -/
theorem Derives.list {S T : List α → List τ → Prop} {p : Parser τ α} {separator : Parser τ β}
    (hp : Derives Q p) (hs : Derives R separator) (hnil : S [] [])
    (happend : ∀ a b as r s t, R b r → Q a s → S as t → S (a :: as) (r ++ s ++ t))
    (hfirst : ∀ a as s t, Q a s → S as t → T (a :: as) (s ++ t)) :
    Derives T (list p separator) := by
  have hpiece : Derives (fun a piece => ∃ b r s, piece = r ++ s ∧ R b r ∧ Q a s)
      (Peg.map Prod.snd (Peg.seq separator p)) := by
    have hboth : Derives (fun (ba : β × α) piece => ∃ r s, piece = r ++ s ∧ R ba.1 r ∧ Q ba.2 s)
        (Peg.seq separator p) := hs.seq hp fun b a r s hr hq => ⟨r, s, rfl, hr, hq⟩
    exact (hboth.mono fun ba piece h => ⟨ba.1, h⟩).map
  have hrest : Derives S (Peg.many (Peg.map Prod.snd (Peg.seq separator p))) := by
    refine hpiece.many hnil ?_
    rintro a as _ t ⟨b, r, s, rfl, hr, hq⟩ ht
    exact happend a b as r s t hr hq ht
  have hboth : Derives (fun (aas : α × List α) => T (aas.1 :: aas.2))
      (Peg.seq p (Peg.many (Peg.map Prod.snd (Peg.seq separator p)))) := hp.seq hrest hfirst
  exact hboth.map

/-- The rule for skipped tokens: any run of them may stand in front. -/
theorem Derives.skipping {Q' : α → List τ → Prop} {space : τ → Bool} {p : Parser τ α}
    (hp : Derives Q p)
    (happend : ∀ a skipped t, (∀ c ∈ skipped, space c = true) → Q a t → Q' a (skipped ++ t)) :
    Derives Q' (skipping space p) := by
  intro input a rest h
  obtain ⟨t, ht, hq⟩ := hp _ a rest h
  refine ⟨input.takeWhile space ++ t, ?_, happend a _ t (fun c hc => List.mem_takeWhile_imp hc) hq⟩
  rw [List.append_assoc, ← ht, List.takeWhile_append_dropWhile]

/-- The rule for recursion: what the body derives, given a parser that derives `Q`, is `Q`. -/
theorem Derives.fix {body : Parser τ α → Parser τ α}
    (h : ∀ p, Derives Q p → Derives Q (body p)) : Derives Q (fix body) := by
  have levels : ∀ depth, Derives Q (iterate body depth) := by
    intro depth
    induction depth with
    | zero => exact fun input a rest hp => absurd hp (by simp [iterate, fail])
    | succ depth ih => exact h _ ih
  exact fun input a rest hp => levels (input.length + 1) input a rest hp

end Derivation

section Consumption

variable {Q R S : List τ → Prop}

theorem Consumes.mono {p : Parser τ α} (h : Consumes Q p) (hQR : ∀ taken, Q taken → R taken) :
    Consumes R p := Derives.mono h fun _ => hQR

/-- A parser that takes a prefix of its input does not grow it. -/
theorem Consumes.non_growing {p : Parser τ α} (h : Consumes Q p) : NonGrowing p := by
  intro input a rest hp
  obtain ⟨taken, rfl, -⟩ := h input a rest hp
  simp

theorem Consumes.satisfy {test : τ → Bool} (h : ∀ c, test c = true → Q [c]) :
    Consumes Q (satisfy test) := Derives.satisfy h

theorem Consumes.eps (h : Q []) : Consumes Q (eps : Parser τ Unit) := Derives.eps h

theorem Consumes.symbols [DecidableEq τ] {table : List (List τ × α)}
    (h : ∀ entry ∈ table, Q entry.1) : Consumes Q (symbols table) := Derives.symbols h

theorem Consumes.literal [DecidableEq τ] {key : List τ} (h : Q key) : Consumes Q (literal key) :=
  Derives.literal h

theorem Consumes.map {f : α → β} {p : Parser τ α} (h : Consumes Q p) : Consumes Q (map f p) :=
  Derives.map h

theorem Consumes.alt {p q : Parser τ α} (hp : Consumes Q p) (hq : Consumes Q q) :
    Consumes Q (alt p q) := Derives.alt hp hq

/-- The rule for sequences: the parts consume one behind the other. -/
theorem Consumes.seq {p : Parser τ α} {q : Parser τ β} (hp : Consumes Q p) (hq : Consumes R q)
    (happend : ∀ s t, Q s → R t → S (s ++ t)) : Consumes S (seq p q) :=
  Derives.seq hp hq fun _ _ => happend

/-- The rule for repetition: `Q` holds of nothing and of one more piece. -/
theorem Consumes.many {p : Parser τ α} (hp : Consumes R p) (hnil : Q [])
    (happend : ∀ s t, R s → Q t → Q (s ++ t)) : Consumes Q (many p) :=
  Derives.many hp hnil fun _ _ => happend

/-- The rule for separated lists. -/
theorem Consumes.list {p : Parser τ α} {separator : Parser τ β} (hp : Consumes Q p)
    (hs : Consumes R separator) (hnil : S [])
    (happend : ∀ r s t, R r → Q s → S t → S (r ++ s ++ t))
    {T : List τ → Prop} (hfirst : ∀ s t, Q s → S t → T (s ++ t)) :
    Consumes T (list p separator) :=
  Derives.list hp hs hnil (fun _ _ _ => happend) fun _ _ => hfirst

/-- The rule for skipped tokens: any run of them may stand in front. -/
theorem Consumes.skipping {space : τ → Bool} {p : Parser τ α} (hp : Consumes R p)
    (happend : ∀ skipped t, (∀ c ∈ skipped, space c = true) → R t → Q (skipped ++ t)) :
    Consumes Q (skipping space p) := Derives.skipping hp fun _ => happend

/-- The rule for recursion: what the body consumes, given a parser that consumes `Q`, is `Q`. -/
theorem Consumes.fix {body : Parser τ α → Parser τ α}
    (h : ∀ p, Consumes Q p → Consumes Q (body p)) : Consumes Q (fix body) := Derives.fix h

end Consumption

end Peg
