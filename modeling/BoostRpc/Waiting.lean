import Mathlib.Data.Set.Finite.Basic
import Mathlib.Order.WellFounded

/-!
# Parties that wait for each other

`waits i j` says that the party `i` cannot go on before `j` does. A party is locked up if it waits,
perhaps through others, for itself. Among finitely many parties, those that all wait for one of them
lead to one that is locked up (`leads_to_locked`), and a party stays locked up as long as no party
stops waiting for one that waits itself (`Locked.kept`).
-/

namespace Waiting

open Relation

variable {ι : Type} {waits waits' : ι → ι → Prop} {i j : ι}

/-- The party waits for itself. -/
def Locked (waits : ι → ι → Prop) (i : ι) : Prop := TransGen waits i i

/-- Where every party of a set waits for one of the set, some party of it is locked up. -/
theorem exists_locked [Finite ι] (waits : ι → ι → Prop) {S : Set ι} (hne : S.Nonempty)
    (h : ∀ i ∈ S, ∃ j ∈ S, waits i j) : ∃ i ∈ S, Locked waits i := by
  by_contra hnone
  -- otherwise the parties of the set are ordered by who waits for whom
  have hirrefl : ∀ i : S, ¬ TransGen (fun i j : S => waits j i) i i := by
    intro i hi
    refine hnone ⟨i, i.2, ?_⟩
    have hback : TransGen (Function.swap waits) (i : ι) i :=
      hi.lift Subtype.val fun _ _ hwaits => hwaits
    exact transGen_swap.mp hback
  have : Std.Irrefl (TransGen fun i j : S => waits j i) := ⟨hirrefl⟩
  have hwf : WellFounded (TransGen fun i j : S => waits j i) :=
    Finite.wellFounded_of_trans_of_irrefl _
  obtain ⟨i, hi⟩ := hne
  obtain ⟨m, -, hleast⟩ := hwf.has_min Set.univ ⟨(⟨i, hi⟩ : S), trivial⟩
  obtain ⟨j, hj, hwaits⟩ := h m m.2
  exact hleast ⟨j, hj⟩ trivial (.single hwaits)

/-- Every party of such a set waits, perhaps through others, for one that is locked up. -/
theorem leads_to_locked [Finite ι] (waits : ι → ι → Prop) {S : Set ι}
    (h : ∀ i ∈ S, ∃ j ∈ S, waits i j) (hi : i ∈ S) :
    ∃ j ∈ S, ReflTransGen waits i j ∧ Locked waits j := by
  have hne : {j | j ∈ S ∧ ReflTransGen waits i j}.Nonempty := ⟨i, hi, .refl⟩
  obtain ⟨j, ⟨hj, hleads⟩, hlocked⟩ := exists_locked waits hne fun j hj => by
    obtain ⟨k, hk, hwaits⟩ := h j hj.1
    exact ⟨k, ⟨hk, hj.2.tail hwaits⟩, hwaits⟩
  exact ⟨j, hj, hleads, hlocked⟩

/-- A party that is locked up waits for one that waits. -/
theorem Locked.blocked (h : Locked waits i) : ∃ j, waits i j :=
  (TransGen.head'_iff.mp h).imp fun _ hj => hj.1

/-- Waiting through others is kept where nobody stops waiting for one that waits itself. -/
theorem trans_gen_kept (hkept : ∀ i j, waits i j → (∃ k, waits j k) → waits' i j)
    (h : TransGen waits i j) (hj : ∃ k, waits j k) : TransGen waits' i j := by
  induction h using TransGen.head_induction_on with
  | single hwaits => exact .single (hkept _ _ hwaits hj)
  | head hwaits hrest ih =>
      obtain ⟨k, hk, -⟩ := TransGen.head'_iff.mp hrest
      exact .head (hkept _ _ hwaits ⟨k, hk⟩) ih

/-- A party stays locked up. -/
theorem Locked.kept (hkept : ∀ i j, waits i j → (∃ k, waits j k) → waits' i j)
    (h : Locked waits i) : Locked waits' i :=
  trans_gen_kept hkept h h.blocked

end Waiting
