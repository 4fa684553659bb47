import BoostRpc.Peg.Combinators

/-!
# What a parser makes of one input

`Yields p good input rest cond` is the rule format for a parser that runs on a text somebody
wrote: on `input` it gives a value that is `good` where `cond` holds, and then leaves `rest`; where
`cond` does not hold it fails or gives another value. There is one rule for each combinator.
-/

namespace Peg

variable {τ α β γ : Type}

/-- On `input`, `p` gives a value that is `good` exactly where `cond` holds, and leaves `rest`. -/
def Yields (p : Parser τ α) (good : α → Prop) (input rest : List τ) (cond : Prop) : Prop :=
  ∀ left, (∃ a, p input = some (a, left) ∧ good a) ↔ cond ∧ left = rest

variable {p : Parser τ α} {q : Parser τ β} {good : α → Prop} {good' : β → Prop}
  {input middle rest : List τ} {cond cond' : Prop}

/-- A parser that succeeds on the input. -/
theorem yields_of_some (good : α → Prop) {a : α} (h : p input = some (a, rest)) :
    Yields p good input rest (good a) := by
  intro left
  constructor
  · rintro ⟨b, hb, hgood⟩
    obtain ⟨rfl, rfl⟩ := Prod.mk.inj (Option.some.inj (h.symm.trans hb))
    exact ⟨hgood, rfl⟩
  · rintro ⟨hgood, rfl⟩
    exact ⟨a, h, hgood⟩

theorem Yields.iff (h : Yields p good input rest cond) (hcond : cond ↔ cond') :
    Yields p good input rest cond' := by
  intro left
  rw [h left, hcond]

theorem Yields.good_iff {other : α → Prop} (h : Yields p good input rest cond)
    (hgood : ∀ a, good a ↔ other a) : Yields p other input rest cond := by
  intro left
  rw [← h left]
  exact exists_congr fun a => and_congr_right fun _ => (hgood a).symm

/-- Only what the parser does on the input matters. -/
theorem Yields.congr {r : Parser τ α} (h : Yields p good input rest cond)
    (hr : r input = p input) : Yields r good input rest cond := by
  intro left
  rw [hr]
  exact h left

theorem Yields.map {f : α → β} (h : Yields p (fun a => good' (f a)) input rest cond) :
    Yields (map f p) good' input rest cond := by
  intro left
  rw [← h left]
  constructor
  · rintro ⟨b, hb, hgood⟩
    obtain ⟨a, ha, rfl⟩ := map_eq_some hb
    exact ⟨a, ha, hgood⟩
  · rintro ⟨a, ha, hgood⟩
    refine ⟨f a, ?_, hgood⟩
    simp only [Peg.map, ha, Option.map_some]

theorem Yields.seq (hp : Yields p good input middle cond) (hq : Yields q good' middle rest cond') :
    Yields (seq p q) (fun ab => good ab.1 ∧ good' ab.2) input rest (cond ∧ cond') := by
  intro left
  constructor
  · rintro ⟨ab, hab, hgood, hgood'⟩
    obtain ⟨behind, h1, h2⟩ := seq_eq_some hab
    obtain ⟨hcond, rfl⟩ := (hp behind).mp ⟨ab.1, h1, hgood⟩
    obtain ⟨hcond', hleft⟩ := (hq left).mp ⟨ab.2, h2, hgood'⟩
    exact ⟨⟨hcond, hcond'⟩, hleft⟩
  · rintro ⟨⟨hcond, hcond'⟩, hleft⟩
    obtain ⟨a, ha, hgood⟩ := (hp middle).mpr ⟨hcond, rfl⟩
    obtain ⟨b, hb, hgood'⟩ := (hq left).mpr ⟨hcond', hleft⟩
    refine ⟨(a, b), ?_, hgood, hgood'⟩
    simp only [Peg.seq, ha, hb]

/-- A choice whose second parser gives nothing good on the input. -/
theorem Yields.first {r : Parser τ α} (h : Yields p good input rest cond)
    (hr : ∀ a left, r input = some (a, left) → ¬ good a) :
    Yields (alt p r) good input rest cond := by
  intro left
  rw [← h left]
  constructor
  · rintro ⟨a, ha, hgood⟩
    rcases alt_eq_some ha with ha | ⟨-, ha⟩
    · exact ⟨a, ha, hgood⟩
    · exact absurd hgood (hr a left ha)
  · rintro ⟨a, ha, hgood⟩
    refine ⟨a, ?_, hgood⟩
    simp only [alt, ha]

/-- A choice whose first parser fails on the input. -/
theorem Yields.second {r : Parser τ α} (h : Yields p good input rest cond) (hr : r input = none) :
    Yields (alt r p) good input rest cond := by
  intro left
  rw [← h left]
  unfold alt
  rw [hr]

/-- A repetition that is done. -/
theorem yields_many_nil (h : p input = none) : Yields (many p) (· = []) input input True := by
  have hnil := yields_of_some (· = []) (many_none h)
  exact hnil.iff (by simp)

/-- A repetition that goes on. -/
theorem Yields.many_cons {goods : List α → Prop} (hp : Progresses p)
    (h : Yields p good input middle cond) (hs : Yields (many p) goods middle rest cond') :
    Yields (many p) (fun as => ∃ a as', as = a :: as' ∧ good a ∧ goods as') input rest
      (cond ∧ cond') := by
  intro left
  constructor
  · rintro ⟨_, hmany, a, as, rfl, hgood, hgoods⟩
    cases hfirst : p input with
    | none =>
        rw [many_none hfirst] at hmany
        exact absurd (congrArg Prod.fst (Option.some.inj hmany)) (by simp)
    | some result =>
        obtain ⟨b, behind⟩ := result
        obtain ⟨bs, left', hbs⟩ : ∃ bs left', many p behind = some (bs, left') := ⟨_, _, rfl⟩
        rw [many_some hp hfirst hbs] at hmany
        obtain ⟨hcons, rfl⟩ := Prod.mk.inj (Option.some.inj hmany)
        obtain ⟨rfl, rfl⟩ := List.cons.inj hcons
        obtain ⟨hcond, rfl⟩ := (h behind).mp ⟨b, hfirst, hgood⟩
        obtain ⟨hcond', hleft⟩ := (hs left').mp ⟨bs, hbs, hgoods⟩
        exact ⟨⟨hcond, hcond'⟩, hleft⟩
  · rintro ⟨⟨hcond, hcond'⟩, hleft⟩
    obtain ⟨a, ha, hgood⟩ := (h middle).mpr ⟨hcond, rfl⟩
    obtain ⟨as, has, hgoods⟩ := (hs left).mpr ⟨hcond', hleft⟩
    exact ⟨a :: as, many_some hp ha has, a, as, rfl, hgood, hgoods⟩

/-- The list of `p` separated by `separator` is the first one and the others. -/
theorem Yields.list {separator : Parser τ β} {goods : List α → Prop}
    (h : Yields p good input middle cond)
    (hs : Yields (many (Peg.map Prod.snd (Peg.seq separator p))) goods middle rest cond') :
    Yields (list p separator) (fun as => ∃ a as', as = a :: as' ∧ good a ∧ goods as') input rest
      (cond ∧ cond') := by
  apply Yields.map
  intro left
  rw [← (h.seq hs) left]
  constructor
  · rintro ⟨ab, hab, a, as, heq, hgood, hgoods⟩
    obtain ⟨rfl, rfl⟩ := List.cons.inj heq
    exact ⟨ab, hab, hgood, hgoods⟩
  · rintro ⟨ab, hab, hgood, hgoods⟩
    exact ⟨ab, hab, ab.1, ab.2, rfl, hgood, hgoods⟩

end Peg
