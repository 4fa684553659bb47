import Mathlib.Data.List.Basic

/-!
# Actions that commute

A state is acted on by the elements of a list, one after the other. Every element has a key, and
elements of different keys commute. Then what becomes of the state depends only on the elements of
each key and on their order: `foldl_eq_of_filter`.
-/

namespace Commuting

variable {S A K : Type} [DecidableEq K]

/-- The elements of the list with this key. -/
def ofKey (key : A → K) (k : K) (l : List A) : List A := l.filter fun a => key a = k

/-- The two lists have the same elements of every key, in the same order. -/
def SameByKey (key : A → K) (l l' : List A) : Prop := ∀ k, ofKey key k l = ofKey key k l'

/-- Elements of different keys commute. -/
def CommuteByKey (key : A → K) (act : S → A → S) : Prop :=
  ∀ s a b, key a ≠ key b → act (act s a) b = act (act s b) a

variable {key : A → K} {act : S → A → S} {a : A} {k : K} {l l' : List A}

theorem of_key_cons_self : ofKey key (key a) (a :: l) = a :: ofKey key (key a) l :=
  List.filter_cons_of_pos (decide_eq_true rfl)

theorem of_key_cons_other (h : key a ≠ k) : ofKey key k (a :: l) = ofKey key k l :=
  List.filter_cons_of_neg (by simpa using h)

theorem of_key_append : ofKey key k (l ++ l') = ofKey key k l ++ ofKey key k l' :=
  List.filter_append ..

/-- A list without an element of any key is empty. -/
theorem eq_nil_of_keys (h : ∀ k, ofKey key k l = []) : l = [] := by
  cases l with
  | nil => rfl
  | cons a l =>
      have hself := h (key a)
      rw [of_key_cons_self] at hself
      cases hself

omit [DecidableEq K] in
/-- An element can act behind those of other keys. -/
theorem foldl_past (hact : CommuteByKey key act) (s : S) (h : ∀ b ∈ l, key b ≠ key a) :
    l.foldl act (act s a) = act (l.foldl act s) a := by
  induction l generalizing s with
  | nil => rfl
  | cons b l ih =>
      have hb := h b List.mem_cons_self
      have hrest := ih (act s b) fun c hc => h c (List.mem_cons_of_mem b hc)
      rw [List.foldl_cons, hact s a b hb.symm, hrest]
      rfl

/-- The first element of its key has elements of other keys in front of it. -/
theorem split_of_key {rest : List A} (h : ofKey key (key a) l = a :: rest) :
    ∃ front back, l = front ++ a :: back ∧ (∀ b ∈ front, key b ≠ key a) ∧
      ofKey key (key a) back = rest := by
  induction l with
  | nil => cases h
  | cons b l ih =>
      by_cases hb : key b = key a
      · rw [← hb, of_key_cons_self] at h
        obtain ⟨rfl, hrest⟩ := List.cons.inj h
        exact ⟨[], l, rfl, List.forall_mem_nil _, hrest⟩
      · rw [of_key_cons_other hb] at h
        obtain ⟨front, back, rfl, hfront, hback⟩ := ih h
        refine ⟨b :: front, back, rfl, fun c hc => ?_, hback⟩
        rcases List.mem_cons.mp hc with rfl | hc
        · exact hb
        · exact hfront c hc

/-- What becomes of the state depends only on the elements of each key and on their order. -/
theorem foldl_eq_of_filter (hact : CommuteByKey key act) (h : SameByKey key l l') (s : S) :
    l.foldl act s = l'.foldl act s := by
  induction l generalizing l' s with
  | nil =>
      have hnil : l' = [] := eq_nil_of_keys fun k => (h k).symm
      rw [hnil]
  | cons a l ih =>
      have hself := h (key a)
      rw [of_key_cons_self] at hself
      obtain ⟨front, back, rfl, hfront, hback⟩ := split_of_key hself.symm
      have hrest : SameByKey key l (front ++ back) := by
        intro k
        have hk := h k
        rw [of_key_append] at hk ⊢
        by_cases hak : key a = k
        · subst hak
          have hnone : ofKey key (key a) front = [] :=
            List.filter_eq_nil_iff.mpr fun b hb => by simpa using hfront b hb
          rw [hnone, of_key_cons_self, of_key_cons_self] at hk
          rw [hnone]
          exact (List.cons.inj hk).2
        · rwa [of_key_cons_other hak, of_key_cons_other hak] at hk
      rw [List.foldl_cons, ih hrest, List.foldl_append, List.foldl_append, List.foldl_cons,
        foldl_past hact s hfront]

/-- The lists are permutations of each other. -/
theorem perm_of_same (h : SameByKey key l l') : l.Perm l' := by
  classical
  refine List.perm_iff_count.mpr fun a => ?_
  have hcount : ∀ l : List A, l.count a = (ofKey key (key a) l).count a :=
    fun l => (List.count_filter (by simp)).symm
  rw [hcount l, hcount l', h (key a)]

end Commuting
