import BoostRpc.Json.DistinctKeys
import BoostRpc.Json.ReadBack

/-!
# The order of members

A struct is unpacked by the names of its members, so that neither their order in the object nor
members that the struct does not have make a difference: `unpack_rearranged` says so for what is
rearranged at any depth.
-/

namespace BoostRpc.Json

open Ordered Raw

variable {α β γ : Type}

/-! ## Rearranged objects -/

/-- `o'` has the members of `o`, whose keys differ, in any order, with values that `R` relates, and
further members of which none is known. -/
def Object.Rearranged (known : List Text) (R : Text → Value → Value → Prop) (o o' : Object) :
    Prop :=
  (Object.keys o).Nodup ∧ ∃ inner extra : Object,
    List.Forall₂ (fun e e' => e'.1 = e.1 ∧ R e.1 e.2 e'.2) o inner ∧
      o'.Perm (inner ++ extra) ∧ ∀ e ∈ extra, e.1 ∉ known

/-- What is found of a known member. -/
def Related (R : Text → Value → Value → Prop) (o o' : Object) (name : Text) : Prop :=
  o.find? name = none ∧ o'.find? name = none ∨
    ∃ x x', o.find? name = some x ∧ o'.find? name = some x' ∧ R name x x'

/-- Each known member is found in both objects or in none. -/
theorem Object.Rearranged.related {known : List Text} {R : Text → Value → Value → Prop}
    {o o' : Object} (h : Object.Rearranged known R o o') {name : Text} (hname : name ∈ known) :
    Related R o o' name := by
  obtain ⟨hnodup, inner, extra, hinner, hperm, hextra⟩ := h
  have hkeys : Object.keys inner = Object.keys o := keys_packed hinner
  have hmem : ∀ e ∈ o', e.1 = name → e ∈ inner := by
    intro e he hename
    obtain hin | hout := List.mem_append.mp (hperm.mem_iff.mp he)
    · exact hin
    · exact absurd (hename ▸ hname) (hextra e hout)
  cases hfind : o.find? name with
  | none =>
      refine .inl ⟨hfind, find_none_of_not_mem fun hkey => ?_⟩
      obtain ⟨e, he, hename⟩ := List.mem_map.mp hkey
      have hkey : name ∈ Object.keys o :=
        hkeys ▸ List.mem_map.mpr ⟨e, hmem e he hename, hename⟩
      have hcontains := (contains_iff o name).mpr hkey
      rw [Object.contains, hfind] at hcontains
      cases hcontains
  | some x =>
      obtain ⟨e, he, hex, hR⟩ : ∃ e ∈ inner, e.1 = name ∧ R name x e.2 := by
        obtain ⟨i, hi, hget⟩ := List.mem_iff_getElem.mp (mem_of_find hfind)
        have hi' : i < inner.length := hinner.length_eq ▸ hi
        have hrel := List.forall₂_iff_get.mp hinner |>.2 i hi hi'
        simp only [List.get_eq_getElem, hget] at hrel
        exact ⟨inner[i], List.getElem_mem hi', hrel⟩
      have hfound : inner.find? name = some e.2 :=
        find_entry (hkeys ▸ hnodup) (hex ▸ he)
      cases hfind' : o'.find? name with
      | none =>
          have he' : e ∈ o' := hperm.mem_iff.mpr (List.mem_append_left _ he)
          have hcontains := (contains_iff o' name).mpr (List.mem_map.mpr ⟨e, he', hex⟩)
          rw [Object.contains, hfind'] at hcontains
          cases hcontains
      | some y =>
          have hy := find_entry (hkeys ▸ hnodup) (hmem _ (mem_of_find hfind') rfl)
          obtain rfl := Option.some.inj (hfound.symm.trans hy)
          exact .inr ⟨x, e.2, hfind, hfind', hR⟩

/-! ## Rearranged values -/

/-- What is unpacked as a pair, by its members `first` and `second`. -/
def PairRearranged (R S : Value → Value → Prop) (jsv jsv' : Value) : Prop :=
  jsv = jsv' ∨ ∃ o o', jsv = .object o ∧ jsv' = .object o' ∧
    Object.Rearranged [str "first", str "second"] (fun name x x' =>
      if name = str "first" then R x x' else if name = str "second" then S x x' else x = x') o o'

mutual
/-- The members of the objects that are unpacked as structs of this type are rearranged, and there
may be further ones. -/
def Packable.Rearranged : {α : Type} → Packable α → Value → Value → Prop
  | _, .atomic _, jsv, jsv' => jsv = jsv'
  | _, .optional t, jsv, jsv' => t.Rearranged jsv jsv'
  | _, .required t, jsv, jsv' => t.Rearranged jsv jsv'
  | _, .vector t, jsv, jsv' => jsv = jsv' ∨ ∃ a a', jsv = .array a ∧ jsv' = .array a' ∧
      List.Forall₂ t.Rearranged a a'
  | _, .list _, jsv, jsv' => jsv = jsv'
  | _, .set _ _, jsv, jsv' => jsv = jsv'
  | _, .stringMap t, jsv, jsv' => jsv = jsv' ∨ ∃ o o', jsv = .object o ∧ jsv' = .object o' ∧
      List.Forall₂ (fun e e' => e'.1 = e.1 ∧ t.Rearranged e.2 e'.2) o o'
  | _, .map _ k t, jsv, jsv' => jsv = jsv' ∨ ∃ a a', jsv = .array a ∧ jsv' = .array a' ∧
      List.Forall₂ (PairRearranged k.Rearranged t.Rearranged) a a'
  | _, .pair t u, jsv, jsv' => PairRearranged t.Rearranged u.Rearranged jsv jsv'
  | _, .sequence ts, jsv, jsv' => jsv = jsv' ∨ ∃ a a', jsv = .array a ∧ jsv' = .array a' ∧
      ts.Rearranged a a'
  | _, @Packable.struct _ _ names ts _, jsv, jsv' => jsv = jsv' ∨ ∃ o o', jsv = .object o ∧
      jsv' = .object o' ∧ Object.Rearranged names (fun name x x' => ts.Rearranged name x x') o o'

/-- The elements of a sequence. What is behind them is the same. -/
def Parts.Rearranged : {α : Type} → Parts α → List Value → List Value → Prop
  | _, .nil, a, a' => a = a'
  | _, .cons t ts, a, a' => a = a' ∨ ∃ x xs x' xs', a = x :: xs ∧ a' = x' :: xs' ∧
      t.Rearranged x x' ∧ ts.Rearranged xs xs'

/-- The values of a member, or of another with this name. -/
def Fields.Rearranged : {names : List Text} → {α : Type} → Fields names α → Text → Value → Value →
    Prop
  | _, _, .nil, _, x, x' => x = x'
  | _, _, .cons name' _ t ts, name, x, x' =>
      if name = name' then t.Rearranged x x' else ts.Rearranged name x x'
end

/-! ## Unpacking -/

/-- A loop over related elements of which each does the same. -/
theorem counted_loop_congr {body : β → γ → Except Failure β} {R : γ → γ → Prop} {xs xs' : List γ}
    (hxs : List.Forall₂ R xs xs') (h : ∀ x x', R x x' → ∀ v, body v x = body v x') (v : β) :
    countedLoop body xs v = countedLoop body xs' v := by
  have hfold : ∀ {ys ys' : List γ}, List.Forall₂ R ys ys' → ∀ v,
      ys.foldlM body v = ys'.foldlM body v := by
    intro ys ys' hys
    induction hys with
    | nil => exact fun v => rfl
    | cons hy _ ih =>
        intro v
        rw [List.foldlM_cons, List.foldlM_cons, h _ _ hy v]
        exact congrArg _ (funext ih)
  unfold countedLoop
  rw [hxs.length_eq, hfold hxs v, hfold (List.forall₂_take _ hxs) v]

/-- What is found by `operator[]`, or that it is not found. -/
theorem at_congr {R : Text → Value → Value → Prop} {o o' : Object} {name : Text}
    (h : Related R o o' name) {item : Value → Except Failure α}
    (hitem : ∀ x x', R name x x' → item x = item x') :
    (raised (Value.at (.object o) name) >>= item) =
      (raised (Value.at (.object o') name) >>= item) := by
  show (raised (Object.at o name) >>= item) = (raised (Object.at o' name) >>= item)
  unfold Object.at
  obtain ⟨hnone, hnone'⟩ | ⟨x, x', hsome, hsome', hR⟩ := h
  · rw [hnone, hnone']
  · rw [hsome, hsome']
    exact hitem x x' hR

theorem unpack_pair_congr {first : Value → α → Except Failure α}
    {second : Value → β → Except Failure β} {R S : Value → Value → Prop}
    (hfirst : ∀ x x', R x x' → ∀ v, first x v = first x' v)
    (hsecond : ∀ x x', S x x' → ∀ v, second x v = second x' v) {jsv jsv' : Value}
    (h : PairRearranged R S jsv jsv') (v : α × β) :
    unpackPair first second jsv v = unpackPair first second jsv' v := by
  obtain rfl | ⟨o, o', rfl, rfl, ho⟩ := h
  · rfl
  have hne : str "second" ≠ str "first" := by decide
  have hrest : ∀ x : α, (raised (Value.at (.object o) (str "second")) >>= fun val =>
        second val v.2 >>= fun y => Except.ok (x, y)) =
      (raised (Value.at (.object o') (str "second")) >>= fun val =>
        second val v.2 >>= fun y => Except.ok (x, y)) := by
    intro x
    refine at_congr (ho.related (by simp)) fun val val' hval => ?_
    rw [if_neg hne, if_pos rfl] at hval
    rw [hsecond val val' hval]
  show (raised (Value.at (.object o) (str "first")) >>= fun val => first val v.1 >>= fun x =>
      raised (Value.at (.object o) (str "second")) >>= fun val =>
        second val v.2 >>= fun y => Except.ok (x, y)) =
    (raised (Value.at (.object o') (str "first")) >>= fun val => first val v.1 >>= fun x =>
      raised (Value.at (.object o') (str "second")) >>= fun val =>
        second val v.2 >>= fun y => Except.ok (x, y))
  simp only [hrest]
  refine at_congr (ho.related (by simp)) fun val val' hval => ?_
  rw [if_pos rfl] at hval
  rw [hfirst val val' hval]

mutual
theorem Packable.unpack_rearranged (memory : Memory) {α : Type} (t : Packable α)
    {jsv jsv' : Value} (h : t.Rearranged jsv jsv') (w : α) :
    t.unpack memory jsv w = t.unpack memory jsv' w := by
  match t, w with
  | .atomic p, w => exact congrArg p.unpack h
  | .optional t, w =>
      exact congrArg (· >>= fun x => Except.ok (some x)) (t.unpack_rearranged memory h _)
  | .required t, w =>
      exact congrArg (· >>= fun x => Except.ok (some x)) (t.unpack_rearranged memory h _)
  | .vector t, w =>
      obtain rfl | ⟨a, a', rfl, rfl, ha⟩ := h
      · rfl
      · refine counted_loop_congr ha (fun x x' hx v => ?_) w
        exact congrArg (· >>= fun y => Except.ok (v ++ [y])) (t.unpack_rearranged memory hx _)
  | .list _, w => rfl
  | .set _ _, w => rfl
  | .stringMap t, w =>
      obtain rfl | ⟨o, o', rfl, rfl, ho⟩ := h
      · rfl
      · refine counted_loop_congr ho (fun e e' he m => ?_) Items.empty
        rw [he.1]
        exact congrArg (· >>= fun y => Except.ok (OrderedMap.assign m e.1 y))
          (t.unpack_rearranged memory he.2 _)
  | .map _ k t, w =>
      obtain rfl | ⟨a, a', rfl, rfl, ha⟩ := h
      · rfl
      · refine counted_loop_congr ha (fun x x' hx m => ?_) Items.empty
        exact congrArg (· >>= fun p => Except.ok (OrderedMap.assign m p.1 p.2))
          (unpack_pair_congr (R := k.Rearranged) (S := t.Rearranged)
            (fun x x' hx v => k.unpack_rearranged memory hx v)
            (fun x x' hx v => t.unpack_rearranged memory hx v) hx _)
  | .pair t u, w =>
      exact unpack_pair_congr (R := t.Rearranged) (S := u.Rearranged)
        (fun x x' hx v => t.unpack_rearranged memory hx v)
        (fun x x' hx v => u.unpack_rearranged memory hx v) h w
  | .sequence ts, w =>
      obtain rfl | ⟨a, a', rfl, rfl, ha⟩ := h
      · rfl
      · exact (ts.unpack_rearranged memory ha w).2
  | .struct ts members, w =>
      obtain rfl | ⟨o, o', rfl, rfl, ho⟩ := h
      · rfl
      · exact congrArg (· >>= fun x => Except.ok (members.symm x))
          (ts.unpack_rearranged memory (fun name hname => ho.related hname) (members w))

theorem Parts.unpack_rearranged (memory : Memory) {α : Type} (ts : Parts α) {a a' : List Value}
    (h : ts.Rearranged a a') (w : α) :
    ts.unpack memory (.before a) w = ts.unpack memory (.before a') w ∧
      ts.unpack memory (.begin a) w = ts.unpack memory (.begin a') w := by
  match ts, w with
  | .nil, w => exact ⟨rfl, rfl⟩
  | .cons t ts, (w, ws) =>
      obtain rfl | ⟨x, xs, x', xs', rfl, rfl, hx, hxs⟩ := h
      · exact ⟨rfl, rfl⟩
      · have hcons : Parts.unpack memory (.cons t ts) (.before (x :: xs)) (w, ws) =
            Parts.unpack memory (.cons t ts) (.before (x' :: xs')) (w, ws) := by
          unfold Parts.unpack
          rw [t.unpack_rearranged memory hx w, (ts.unpack_rearranged memory hxs ws).1]
        exact ⟨hcons, hcons⟩

theorem Fields.unpack_rearranged (memory : Memory) {names : List Text} {α : Type}
    (ts : Fields names α) {o o' : Object}
    (h : ∀ name ∈ names, Related (fun name x x' => ts.Rearranged name x x') o o' name) (w : α) :
    ts.unpack memory o w = ts.unpack memory o' w := by
  match ts, w with
  | .nil, w => rfl
  | .cons name fresh t ts, (w, ws) =>
      have hrest : ts.unpack memory o ws = ts.unpack memory o' ws := by
        refine ts.unpack_rearranged memory (fun other hother => ?_) ws
        have hne : other ≠ name := fun heq => fresh (heq ▸ hother)
        obtain hnone | ⟨x, x', hx, hx', hR⟩ := h other (List.mem_cons_of_mem _ hother)
        · exact .inl hnone
        · exact .inr ⟨x, x', hx, hx', (if_neg hne).mp hR⟩
      have hfirst : visitMember (fun val => t.unpack memory val w) o name w =
          visitMember (fun val => t.unpack memory val w) o' name w := by
        obtain ⟨hnone, hnone'⟩ | ⟨x, x', hx, hx', hR⟩ := h name List.mem_cons_self
        · rw [visit_member_of_not_find hnone, visit_member_of_not_find hnone']
        · rw [visit_member_of_find hx, visit_member_of_find hx']
          exact t.unpack_rearranged memory ((if_pos rfl).mp hR) w
      unfold Fields.unpack
      rw [hfirst, hrest]
end

/-- Unpacking an object as a struct and unpacking it rearranged, at the top or at any object inside
that is unpacked as a struct, into equal targets has the same outcome. -/
theorem member_order (memory : Memory) {S α : Type} {names : List Text} (ts : Fields names α)
    (members : S ≃ α) {o o' : Object}
    (h : Object.Rearranged names (fun name x x' => ts.Rearranged name x x') o o') (w : S) :
    Packable.unpack memory (.struct ts members) (.object o) w =
      Packable.unpack memory (.struct ts members) (.object o') w :=
  Packable.unpack_rearranged memory (.struct ts members) (.inr ⟨o, o', rfl, rfl, h⟩) w

/-- The members of a struct with a member that is a struct. -/
def parcel : Fields [str "open", str "label"] (Option Bool × (Text × Unit) × Unit) :=
  .cons (str "open") (by decide) (.optional (.atomic .bool))
    (.cons (str "label") List.not_mem_nil
      (.struct (.cons (str "text") List.not_mem_nil (.atomic .string) .nil) (Equiv.refl _)) .nil)

/-- Both members are in the other order, and the struct inside has a member that it does not
know. -/
theorem member_order_parcel :
    Packable.unpack .zero (.struct parcel (Equiv.refl _))
        (.object [(str "open", .bool true), (str "label", .object [(str "text", .string [])])])
        (none, (str "old", ()), ()) =
      Packable.unpack .zero (.struct parcel (Equiv.refl _))
        (.object [(str "label", .object [(str "sender", .null), (str "text", .string [])]),
          (str "open", .bool true)]) (none, (str "old", ()), ()) := by
  apply member_order
  refine ⟨by decide, [(str "open", .bool true),
    (str "label", .object [(str "sender", .null), (str "text", .string [])])], [], ?_, ?_, ?_⟩
  · refine .cons ⟨rfl, rfl⟩ (.cons ⟨rfl, .inr ⟨_, _, rfl, rfl, ?_⟩⟩ .nil)
    refine ⟨by decide, [(str "text", .string [])], [(str "sender", .null)], ?_, ?_, ?_⟩
    · exact .cons ⟨rfl, rfl⟩ .nil
    · exact .swap _ _ _
    · intro e he
      obtain rfl := List.mem_singleton.mp he
      decide
  · exact .swap _ _ _
  · exact fun e he => absurd he List.not_mem_nil

end BoostRpc.Json
