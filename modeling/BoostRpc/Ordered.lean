import Mathlib.Data.List.Basic
import Mathlib.Tactic.Common

/-!
# Ordered associative containers

Sets and maps that keep their items in ascending order of a key and at most one item for each
class of equivalent keys. `Items` carries the order of its items, so that every value of the type
is a container that insertions can build. `Items.alter_front` is the rule for a writer of items
in ascending order: what it adds goes to the end.
-/

namespace Ordered

/-- A strict weak order, which is what an ordered container asks of its comparison. -/
structure Compare (κ : Type) where
  lt : κ → κ → Bool
  asymm : ∀ a b, lt a b = true → lt b a = false
  negTrans : ∀ a b c, lt a c = true → lt a b = true ∨ lt b c = true

/-- The comparison of the numbers that a function gives. -/
def Compare.ofNat {κ : Type} (f : κ → Nat) : Compare κ where
  lt a b := decide (f a < f b)
  asymm a b h := by
    rw [decide_eq_true_iff] at h
    exact decide_eq_false (by omega)
  negTrans a b c h := by
    simp only [decide_eq_true_iff] at h ⊢
    omega

/-- Whether a list is before another in the lexicographic order, an end being before any element. -/
def lexLt {κ : Type} (lt : κ → κ → Bool) : List κ → List κ → Bool
  | _, [] => false
  | [], _ :: _ => true
  | a :: as, b :: bs => if lt a b then true else if lt b a then false else lexLt lt as bs

theorem lex_lt_cons {κ : Type} (lt : κ → κ → Bool) (a b : κ) (as bs : List κ) :
    lexLt lt (a :: as) (b :: bs) = true ↔
      lt a b = true ∨ (lt b a = false ∧ lexLt lt as bs = true) := by
  rw [lexLt]
  cases lt a b <;> cases lt b a <;> simp

/-- Not being below is transitive. -/
theorem Compare.not_lt_trans {κ : Type} (cmp : Compare κ) {a b c : κ} (hab : cmp.lt a b = false)
    (hbc : cmp.lt b c = false) : cmp.lt a c = false := by
  cases hac : cmp.lt a c with
  | false => rfl
  | true =>
      cases cmp.negTrans a b c hac with
      | inl h => rw [hab] at h; exact h.symm
      | inr h => rw [hbc] at h; exact h.symm

theorem lex_lt_asymm {κ : Type} (cmp : Compare κ) (as bs : List κ)
    (h : lexLt cmp.lt as bs = true) : lexLt cmp.lt bs as = false := by
  induction as generalizing bs with
  | nil =>
      cases bs with
      | nil => rfl
      | cons b bs => rfl
  | cons a as ih =>
      cases bs with
      | nil => exact absurd h (by simp [lexLt])
      | cons b bs =>
          rw [← Bool.not_eq_true, lex_lt_cons]
          rintro (hba | ⟨hab, hrest⟩)
          · have hab := cmp.asymm b a hba
            cases (lex_lt_cons cmp.lt a b as bs).mp h with
            | inl hlt => simp [hlt] at hab
            | inr hle => simp [hle.1] at hba
          · cases (lex_lt_cons cmp.lt a b as bs).mp h with
            | inl hlt => simp [hlt] at hab
            | inr hle => simp [ih bs hle.2] at hrest

theorem lex_lt_neg_trans {κ : Type} (cmp : Compare κ) (as bs cs : List κ)
    (h : lexLt cmp.lt as cs = true) :
    lexLt cmp.lt as bs = true ∨ lexLt cmp.lt bs cs = true := by
  induction as generalizing bs cs with
  | nil =>
      cases bs with
      | nil => exact .inr h
      | cons b bs => exact .inl rfl
  | cons a as ih =>
      cases cs with
      | nil => exact absurd h (by simp [lexLt])
      | cons c cs =>
          cases bs with
          | nil => exact .inr rfl
          | cons b bs =>
              rw [lex_lt_cons] at h ⊢
              rw [lex_lt_cons]
              rcases h with hac | ⟨hca, hrest⟩
              · exact (cmp.negTrans a b c hac).imp .inl .inl
              · cases hab : cmp.lt a b with
                | true => exact .inl (.inl rfl)
                | false =>
                    cases hbc : cmp.lt b c with
                    | true => exact .inr (.inl rfl)
                    | false =>
                        -- all three heads are equivalent
                        have hba := cmp.not_lt_trans hbc hca
                        have hcb := cmp.not_lt_trans hca hab
                        exact (ih bs cs hrest).imp (fun h => .inr ⟨hba, h⟩)
                          (fun h => .inr ⟨hcb, h⟩)

/-- The lexicographic comparison of lists. -/
def Compare.lex {κ : Type} (cmp : Compare κ) : Compare (List κ) where
  lt := lexLt cmp.lt
  asymm := lex_lt_asymm cmp
  negTrans := lex_lt_neg_trans cmp

variable {κ β : Type} {cmp : Compare κ} {key : β → κ}

theorem Compare.trans (cmp : Compare κ) {a b c : κ} (hab : cmp.lt a b = true)
    (hbc : cmp.lt b c = true) : cmp.lt a c = true := by
  cases cmp.negTrans a c b hab with
  | inl hac => exact hac
  | inr hcb =>
      have hbc' := cmp.asymm c b hcb
      rw [hbc] at hbc'
      exact absurd hbc' (by simp)

theorem Compare.irrefl (cmp : Compare κ) (a : κ) : cmp.lt a a = false := by
  cases h : cmp.lt a a with
  | false => rfl
  | true => rw [cmp.asymm a a h] at h; exact h.symm

/-- The items of a container, in ascending order of their keys. -/
structure Items (cmp : Compare κ) (key : β → κ) where
  items : List β
  sorted : items.Pairwise (fun a b => cmp.lt (key a) (key b) = true)

@[ext] theorem Items.ext {s t : Items cmp key} (h : s.items = t.items) : s = t := by
  cases s
  cases t
  cases h
  rfl

/-- The container without items. -/
def Items.empty : Items cmp key := ⟨[], List.Pairwise.nil⟩

/-- The container with one item. -/
def Items.single (b : β) : Items cmp key := ⟨[b], List.pairwise_singleton _ b⟩

@[simp] theorem Items.items_single (b : β) : (Items.single b : Items cmp key).items = [b] := rfl

/-- The list in which the item with a key equivalent to that of `b` is updated, or `b` inserted
where there is none. -/
def alterList (cmp : Compare κ) (key : β → κ) (b : β) (update : β → β) : List β → List β
  | [] => [b]
  | x :: xs =>
      if cmp.lt (key b) (key x) then b :: x :: xs
      else if cmp.lt (key x) (key b) then x :: alterList cmp key b update xs
      else update x :: xs

/-- The keys after an alteration are those before it and that of `b`. -/
theorem key_alter_list {b : β} {update : β → β} (hkey : ∀ x, key (update x) = key x) {xs : List β}
    {y : β} (hy : y ∈ alterList cmp key b update xs) : key y = key b ∨ ∃ x ∈ xs, key y = key x := by
  induction xs with
  | nil =>
      have hyb : y = b := by simpa [alterList] using hy
      exact .inl (congrArg key hyb)
  | cons x xs ih =>
      unfold alterList at hy
      split at hy
      · cases List.mem_cons.mp hy with
        | inl h => exact .inl (congrArg key h)
        | inr h => exact .inr ⟨y, h, rfl⟩
      · split at hy
        · cases List.mem_cons.mp hy with
          | inl h => exact .inr ⟨x, List.mem_cons_self, congrArg key h⟩
          | inr h =>
              cases ih h with
              | inl hb => exact .inl hb
              | inr hx =>
                  obtain ⟨z, hz, hkz⟩ := hx
                  exact .inr ⟨z, List.mem_cons_of_mem _ hz, hkz⟩
        · cases List.mem_cons.mp hy with
          | inl h => exact .inr ⟨x, List.mem_cons_self, by rw [h, hkey]⟩
          | inr h => exact .inr ⟨y, List.mem_cons_of_mem _ h, rfl⟩

theorem sorted_alter_list {b : β} {update : β → β} (hkey : ∀ x, key (update x) = key x)
    {xs : List β} (hsorted : xs.Pairwise (fun a b => cmp.lt (key a) (key b) = true)) :
    (alterList cmp key b update xs).Pairwise (fun a b => cmp.lt (key a) (key b) = true) := by
  induction xs with
  | nil => exact List.pairwise_singleton _ _
  | cons x xs ih =>
      have hhead := (List.pairwise_cons.mp hsorted).1
      have htail := (List.pairwise_cons.mp hsorted).2
      unfold alterList
      split
      · rename_i hbx
        apply List.Pairwise.cons _ hsorted
        intro y hy
        cases List.mem_cons.mp hy with
        | inl h => rw [h]; exact hbx
        | inr h => exact cmp.trans hbx (hhead y h)
      · split
        · rename_i hxb
          apply List.Pairwise.cons _ (ih htail)
          intro y hy
          cases key_alter_list hkey hy with
          | inl h => rw [h]; exact hxb
          | inr h =>
              obtain ⟨z, hz, hkz⟩ := h
              rw [hkz]
              exact hhead z hz
        · apply List.Pairwise.cons _ htail
          intro y hy
          rw [hkey]
          exact hhead y hy

/-- Updates the item with a key equivalent to that of `b`, or inserts `b` where there is none. -/
def Items.alter (s : Items cmp key) (b : β) (update : β → β)
    (hkey : ∀ x, key (update x) = key x) : Items cmp key :=
  ⟨alterList cmp key b update s.items, sorted_alter_list hkey s.sorted⟩

/-- The item whose key is equivalent to `k`. -/
def Items.find (s : Items cmp key) (k : κ) : Option β :=
  s.items.find? (fun x => !cmp.lt k (key x) && !cmp.lt (key x) k)

/-- What is above all items goes to the end. -/
theorem alter_list_last {b : β} {update : β → β} {xs : List β}
    (h : ∀ x ∈ xs, cmp.lt (key x) (key b) = true) :
    alterList cmp key b update xs = xs ++ [b] := by
  induction xs with
  | nil => rfl
  | cons x xs ih =>
      have hx := h x List.mem_cons_self
      have hxs := ih (fun y hy => h y (List.mem_cons_of_mem _ hy))
      simp [alterList, cmp.asymm _ _ hx, hx, hxs]

/-- No item has a key equivalent to one above them all. -/
theorem Items.find_last {s : Items cmp key} {k : κ}
    (h : ∀ x ∈ s.items, cmp.lt (key x) k = true) : s.find k = none := by
  unfold Items.find
  rw [List.find?_eq_none]
  intro x hx
  simp [h x hx]

/-- The first items of a container. -/
def Items.front (s : Items cmp key) {xs ys : List β} (h : xs ++ ys = s.items) : Items cmp key :=
  ⟨xs, (List.pairwise_append.mp (h ▸ s.sorted)).1⟩

/-- In a container the items are above those in front of them. -/
theorem Items.above (s : Items cmp key) {xs ys : List β} {b : β} (h : xs ++ b :: ys = s.items) :
    ∀ x ∈ xs, cmp.lt (key x) (key b) = true := by
  have hsorted : (xs ++ b :: ys).Pairwise (fun a b => cmp.lt (key a) (key b) = true) :=
    h ▸ s.sorted
  intro x hx
  exact (List.pairwise_append.mp hsorted).2.2 x hx b List.mem_cons_self

/-- Adding the next item to the first items of a container. -/
theorem Items.alter_front (s : Items cmp key) {xs ys : List β} {b : β} {update : β → β}
    (hkey : ∀ x, key (update x) = key x) (h : xs ++ b :: ys = s.items) :
    (s.front h).alter b update hkey = s.front (show (xs ++ [b]) ++ ys = s.items by simpa using h) :=
  Items.ext (alter_list_last (s.above h))

/-- Where all keys are equal there is at most one item. -/
theorem Items.length_le_one [Subsingleton κ] (s : Items cmp key) : s.items.length ≤ 1 := by
  cases hitems : s.items with
  | nil => exact Nat.zero_le 1
  | cons a xs =>
      cases xs with
      | nil => exact Nat.le_refl 1
      | cons b ys =>
          have hab : cmp.lt (key a) (key b) = true :=
            s.above (show [a] ++ b :: ys = s.items from hitems.symm) a List.mem_cons_self
          rw [Subsingleton.elim (key a) (key b), cmp.irrefl] at hab
          exact absurd hab (by simp)

/-! ## Total comparisons -/

/-- Keys neither of which is below the other are the same. -/
def Compare.Total (cmp : Compare κ) : Prop :=
  ∀ a b, cmp.lt a b = false → cmp.lt b a = false → a = b

theorem total_of_nat {f : κ → Nat} (hf : Function.Injective f) : (Compare.ofNat f).Total := by
  intro a b hab hba
  simp only [Compare.ofNat, decide_eq_false_iff_not] at hab hba
  exact hf (by omega)

theorem Compare.Total.lex (h : cmp.Total) : cmp.lex.Total := by
  intro as
  induction as with
  | nil =>
      intro bs hab hba
      cases bs with
      | nil => rfl
      | cons b bs => exact absurd hab (by simp [Compare.lex, lexLt])
  | cons a as ih =>
      intro bs hab hba
      cases bs with
      | nil => exact absurd hba (by simp [Compare.lex, lexLt])
      | cons b bs =>
          simp only [Compare.lex, lexLt] at hab hba
          cases hlt : cmp.lt a b with
          | true => simp [hlt] at hab
          | false =>
              cases hgt : cmp.lt b a with
              | true => simp [hgt] at hba
              | false =>
                  simp only [hlt, hgt, Bool.false_eq_true, if_false] at hab hba
                  rw [h a b hlt hgt, ih bs hab hba]

/-- With a total comparison `find` looks for the key itself. -/
theorem Items.find_eq [DecidableEq κ] (h : cmp.Total) (s : Items cmp key) (k : κ) :
    s.find k = s.items.find? (fun x => decide (key x = k)) := by
  have htest : (fun x : β => !cmp.lt k (key x) && !cmp.lt (key x) k) =
      fun x => decide (key x = k) := by
    funext x
    by_cases hx : key x = k
    · simp [hx, cmp.irrefl]
    · rw [decide_eq_false hx, ← Bool.not_eq_true]
      intro hboth
      rw [Bool.and_eq_true, Bool.not_eq_true', Bool.not_eq_true'] at hboth
      exact hx (h _ _ hboth.2 hboth.1)
  rw [Items.find, htest]

theorem find_alter_list [DecidableEq κ] {b : β} {update : β → β}
    (hkey : ∀ x, key (update x) = key x) (htotal : cmp.Total) {xs : List β}
    (hsorted : xs.Pairwise (fun a b => cmp.lt (key a) (key b) = true)) (k : κ) :
    (alterList cmp key b update xs).find? (fun x => decide (key x = k)) =
      if k = key b then
        some ((xs.find? (fun x => decide (key x = key b))).elim b update)
      else xs.find? (fun x => decide (key x = k)) := by
  induction xs with
  | nil =>
      by_cases hk : k = key b
      · simp [alterList, hk]
      · simp [alterList, hk, Ne.symm hk]
  | cons x xs ih =>
      have hhead := (List.pairwise_cons.mp hsorted).1
      have ih := ih (List.pairwise_cons.mp hsorted).2
      unfold alterList
      split
      · -- `b` is below every item
        rename_i hbx
        have hnone : (x :: xs).find? (fun y => decide (key y = key b)) = none := by
          rw [List.find?_eq_none]
          intro y hy
          have hby : cmp.lt (key b) (key y) = true := by
            cases List.mem_cons.mp hy with
            | inl hyx => rw [hyx]; exact hbx
            | inr hyx => exact cmp.trans hbx (hhead y hyx)
          have hne : key y ≠ key b := by
            intro heq
            rw [heq, cmp.irrefl] at hby
            exact absurd hby (by simp)
          simpa using hne
        by_cases hk : k = key b
        · rw [if_pos hk, hnone, hk]
          simp
        · rw [if_neg hk, List.find?_cons_of_neg]
          simpa using Ne.symm hk
      · split
        · rename_i hxb
          have hne : key x ≠ key b := by
            intro heq
            rw [heq, cmp.irrefl] at hxb
            exact absurd hxb (by simp)
          by_cases hx : key x = k
          · simp [hx, show k ≠ key b from hx ▸ hne]
          · rw [List.find?_cons_of_neg (by simpa using hx), ih,
              List.find?_cons_of_neg (by simpa using hne),
              List.find?_cons_of_neg (by simpa using hx)]
        · rename_i hbx hxb
          have hsame : key x = key b := htotal _ _ (by simpa using hxb) (by simpa using hbx)
          by_cases hk : k = key b
          · simp [hk, hkey, hsame]
          · have hx : ¬ key x = k := fun heq => hk (heq.symm.trans hsame)
            simp [hk, hkey, hx]

/-- An alteration is found under the key of `b`, and nothing else changes. -/
theorem Items.find_alter [DecidableEq κ] (htotal : cmp.Total) (s : Items cmp key) (b : β)
    {update : β → β} (hkey : ∀ x, key (update x) = key x) (k : κ) :
    (s.alter b update hkey).find k =
      if k = key b then some ((s.find (key b)).elim b update) else s.find k := by
  rw [Items.find_eq htotal, Items.find_eq htotal, Items.find_eq htotal]
  exact find_alter_list hkey htotal s.sorted k

/-! ## Insertions -/

/-- Whether two keys are equivalent. -/
abbrev Compare.same (cmp : Compare κ) (k l : κ) : Bool := !cmp.lt k l && !cmp.lt l k

theorem Compare.same_iff {k l : κ} :
    cmp.same k l = true ↔ cmp.lt k l = false ∧ cmp.lt l k = false := by
  rw [Compare.same, Bool.and_eq_true, Bool.not_eq_true', Bool.not_eq_true']

theorem Compare.same_trans {a b c : κ} (hab : cmp.same a b = true) (hbc : cmp.same b c = true) :
    cmp.same a c = true := by
  rw [Compare.same_iff] at hab hbc ⊢
  exact ⟨cmp.not_lt_trans hab.1 hbc.1, cmp.not_lt_trans hbc.2 hab.2⟩

theorem Compare.same_symm {a b : κ} (h : cmp.same a b = true) : cmp.same b a = true :=
  Compare.same_iff.mpr (Compare.same_iff.mp h).symm

/-- What is below one of two equivalent keys is equivalent to neither. -/
theorem Compare.not_same_of_lt {a b k : κ} (hlt : cmp.lt a b = true) (ha : cmp.same k a = true) :
    cmp.same k b = false := by
  cases hb : cmp.same k b with
  | false => rfl
  | true =>
      have hab := (Compare.same_iff.mp (Compare.same_trans (Compare.same_symm ha) hb)).1
      cases hlt.symm.trans hab

/-- The item that is found is the one of its class. -/
theorem Items.find_mem (s : Items cmp key) {x : β} (h : x ∈ s.items) : s.find (key x) = some x := by
  have hsorted := s.sorted
  rw [Items.find]
  generalize s.items = xs at h hsorted
  induction xs with
  | nil => exact absurd h List.not_mem_nil
  | cons y ys ih =>
      obtain ⟨hhead, htail⟩ := List.pairwise_cons.mp hsorted
      rcases List.mem_cons.mp h with rfl | h
      · rw [List.find?_cons_of_pos (by simp [cmp.irrefl])]
      · rw [List.find?_cons_of_neg (by simp [hhead x h])]
        exact ih h htail

/-- A container is known by what is found in it. -/
theorem Items.ext_find {s t : Items cmp key} (h : ∀ k, s.find k = t.find k) : s = t := by
  have hsub : ∀ {s t : Items cmp key}, (∀ k, s.find k = t.find k) → ∀ x ∈ s.items, x ∈ t.items := by
    intro s t h x hx
    refine List.mem_of_find?_eq_some (p := fun y => cmp.same (key x) (key y)) ?_
    exact (h (key x)).symm.trans (s.find_mem hx)
  have hnodup : ∀ s : Items cmp key, s.items.Nodup := fun s =>
    s.sorted.imp fun hlt heq => by
      rw [heq, cmp.irrefl] at hlt
      cases hlt
  refine Items.ext (List.Perm.eq_of_pairwise (fun a b _ _ hab hba => ?_) s.sorted t.sorted
    ((List.perm_ext_iff_of_nodup (hnodup s) (hnodup t)).mpr fun x =>
      ⟨hsub h x, hsub (fun k => (h k).symm) x⟩))
  cases hba.symm.trans (cmp.asymm _ _ hab)

/-- An insertion is found where nothing of its class is there before. -/
theorem find_insert_list {b : β} (k : κ) {xs : List β}
    (hsorted : xs.Pairwise (fun a b => cmp.lt (key a) (key b) = true)) :
    (alterList cmp key b id xs).find? (fun x => cmp.same k (key x)) =
      (xs.find? (fun x => cmp.same k (key x))).or
        (if cmp.same k (key b) = true then some b else none) := by
  induction xs with
  | nil =>
      rw [alterList, List.find?_cons, List.find?_nil]
      cases cmp.same k (key b) <;> rfl
  | cons x xs ih =>
      obtain ⟨hhead, htail⟩ := List.pairwise_cons.mp hsorted
      rw [alterList]
      split
      · rename_i hbx
        rw [List.find?_cons]
        cases hb : cmp.same k (key b) with
        | false => exact (Option.or_none).symm
        | true =>
            -- `b` is below every item
            have hnone : (x :: xs).find? (fun x => cmp.same k (key x)) = none := by
              rw [List.find?_eq_none]
              intro y hy
              have hby : cmp.lt (key b) (key y) = true := by
                rcases List.mem_cons.mp hy with rfl | hy
                · exact hbx
                · exact cmp.trans hbx (hhead y hy)
              rw [Compare.not_same_of_lt hby hb]
              exact Bool.false_ne_true
            rw [hnone]
            rfl
      · split
        · rw [List.find?_cons, List.find?_cons]
          cases cmp.same k (key x) with
          | false => exact ih htail
          | true => rfl
        · rename_i hbx hxb
          rw [id]
          by_cases hb : cmp.same k (key b) = true
          · have hx : cmp.same k (key x) = true := Compare.same_trans hb
              (Compare.same_iff.mpr ⟨Bool.eq_false_iff.mpr hbx, Bool.eq_false_iff.mpr hxb⟩)
            rw [List.find?_cons, hx]
            rfl
          · rw [if_neg hb]
            exact Option.or_none.symm

/-- The container behind some insertions. -/
def Items.insertAll (s : Items cmp key) (xs : List β) : Items cmp key :=
  xs.foldl (fun s x => s.alter x id fun _ => rfl) s

/-- What is there before the insertions stays. -/
theorem Items.find_insert_all (s : Items cmp key) (xs : List β) (k : κ) :
    (s.insertAll xs).find k = (s.find k).or (xs.find? fun x => cmp.same k (key x)) := by
  induction xs generalizing s with
  | nil => exact Option.or_none.symm
  | cons x xs ih =>
      have hinsert : (s.alter x id fun _ => rfl).find k = (s.find k).or
          (if cmp.same k (key x) = true then some x else none) := find_insert_list k s.sorted
      rw [Items.insertAll, List.foldl_cons]
      refine (ih _).trans ?_
      rw [hinsert, List.find?_cons]
      cases s.find k with
      | some y => rfl
      | none => cases cmp.same k (key x) <;> rfl

/-- The items of a container make it. -/
theorem Items.insert_all_items (s : Items cmp key) : Items.empty.insertAll s.items = s :=
  Items.ext_find fun k => Items.find_insert_all .empty s.items k

/-- The insertions make the same of a container as of an empty one where all it holds is inserted,
and only then. -/
theorem Items.insert_all_eq_iff (s : Items cmp key) (xs : List β) :
    s.insertAll xs = Items.empty.insertAll xs ↔
      ∀ x ∈ s.items, x ∈ (Items.empty.insertAll xs : Items cmp key).items := by
  constructor
  · intro h x hx
    rw [← h]
    refine List.mem_of_find?_eq_some (p := fun y => cmp.same (key x) (key y)) ?_
    refine (s.find_insert_all xs (key x)).trans ?_
    rw [s.find_mem hx, Option.some_or]
  · intro h
    refine Items.ext_find fun k => ?_
    rw [Items.find_insert_all]
    refine Eq.trans ?_ (Items.find_insert_all .empty xs k).symm
    cases hk : s.find k with
    | none => rfl
    | some x =>
        -- the item of this class is inserted too
        have hx := h x (List.mem_of_find?_eq_some hk)
        have hsame : cmp.same k (key x) = true :=
          List.find?_some (p := fun y => cmp.same k (key y)) hk
        have hfind := Items.find_mem _ hx
        have hclass : ∀ y, cmp.same k (key y) = cmp.same (key x) (key y) := by
          intro y
          rw [Bool.eq_iff_iff]
          exact ⟨Compare.same_trans (Compare.same_symm hsame), Compare.same_trans hsame⟩
        have hfind' : (Items.empty.insertAll xs : Items cmp key).find k = some x := by
          rw [← hfind, Items.find, Items.find]
          exact congrArg (fun p => List.find? p _) (funext hclass)
        exact hfind'.symm.trans (Items.find_insert_all .empty xs k)

end Ordered
