import BoostRpc.Json.Acceptance
import BoostRpc.Json.Packable

/-!
# Keys of objects

`operator[]` looks for a key before it appends one, and `json::pack` makes objects through it: what
they make has no key twice (`distinct_of_made`). The grammar appends the pairs as they come. A
lookup then finds the first of two entries and a `std::map` keeps the last. `objects_agree_iff`
says for which texts all readers of all objects agree.
-/

namespace BoostRpc.Json

open Ordered Raw

/-! ## Readers of an object -/

/-- The keys of an object, as they stand in its vector. -/
def Object.keys (o : Object) : List Text := o.map Prod.fst

/-- All readers of the object agree on it. -/
structure Object.Agrees (o : Object) : Prop where
  distinct : (Object.keys o).Nodup
  contains : ∀ k, o.contains k = true ↔ k ∈ Object.keys o
  /-- `operator[]` finds every entry. -/
  at_entry : ∀ k v, (k, v) ∈ o → o.at k = .ok v
  /-- A member of a reflected struct, optional or not, is unpacked from what `operator[]` finds. -/
  member : ∀ (memory : Memory) {names : List Text} {α β : Type} (k : Text) (fresh : k ∉ names)
    (t : Packable α) (ts : Fields names β) (x : α) (xs : β) (v : Value), o.at k = .ok v →
    (Fields.cons k fresh t ts).unpack memory o (x, xs) = (do
      let y ← t.unpack memory v x
      let ys ← ts.unpack memory o xs
      return (y, ys))
  /-- A member that `operator[]` does not find keeps what it holds. -/
  absent : ∀ (memory : Memory) {names : List Text} {α β : Type} (k : Text) (fresh : k ∉ names)
    (t : Packable α) (ts : Fields names β) (x : α) (xs : β), k ∉ Object.keys o →
    (Fields.cons k fresh t ts).unpack memory o (x, xs) = (do
      let ys ← ts.unpack memory o xs
      return (x, ys))
  /-- An entry of a `std::map` is unpacked from what `operator[]` finds, and there are no others. -/
  entry : ∀ (memory : Memory) {α : Type} (t : Packable α) (old m : OrderedMap lessString α),
    (Packable.stringMap t).unpack memory (.object o) old = .ok m → ∀ k,
    (∀ v, o.at k = .ok v → ∃ y, t.unpack memory v (t.construct .zero) = .ok y ∧
      m.find k = some (k, y)) ∧
    (o.contains k = false → m.find k = none)

theorem contains_iff (o : Object) (k : Text) : o.contains k = true ↔ k ∈ Object.keys o := by
  induction o with
  | nil => simp [Object.contains, Object.find?, Object.keys]
  | cons entry o ih =>
      obtain ⟨key, v⟩ := entry
      unfold Object.contains Object.keys at *
      by_cases hk : key = k
      · simp [Object.find?, hk]
      · simp only [Object.find?, hk, if_false, ih, List.map_cons, List.mem_cons]
        exact ⟨.inr, fun h => h.resolve_left (Ne.symm hk)⟩

/-- Where no key is there twice, every entry is the first of its key. -/
theorem find_entry {o : Object} (h : (Object.keys o).Nodup) {k : Text} {v : Value}
    (hmem : (k, v) ∈ o) : o.find? k = some v := by
  induction o with
  | nil => exact absurd hmem List.not_mem_nil
  | cons entry o ih =>
      obtain ⟨key, x⟩ := entry
      obtain ⟨hfresh, hrest⟩ := List.nodup_cons.mp h
      cases List.mem_cons.mp hmem with
      | inl heq =>
          obtain ⟨rfl, rfl⟩ := Prod.mk.inj heq
          simp [Object.find?]
      | inr hlater =>
          have hne : key ≠ k := by
            rintro rfl
            exact hfresh (List.mem_map.mpr ⟨(key, v), hlater, rfl⟩)
          simp only [Object.find?, hne, if_false]
          exact ih hrest hlater

theorem mem_of_find {o : Object} {k : Text} {v : Value} (h : o.find? k = some v) :
    (k, v) ∈ o := by
  induction o with
  | nil => exact absurd h (by simp [Object.find?])
  | cons entry o ih =>
      unfold Object.find? at h
      split at h
      · rename_i hk
        obtain rfl := Option.some.inj h
        rw [← hk]
        exact List.mem_cons_self
      · exact List.mem_cons_of_mem _ (ih h)

theorem at_eq_ok {o : Object} {k : Text} {v : Value} : o.at k = .ok v ↔ o.find? k = some v := by
  unfold Object.at
  cases o.find? k with
  | none => simp
  | some w => simp

theorem find_none_of_not_mem {o : Object} {k : Text} (h : k ∉ Object.keys o) :
    o.find? k = none := by
  rw [← contains_iff, Object.contains, Option.isSome_iff_ne_none, not_not] at h
  exact h

theorem total_less_string : lessString.Total :=
  (total_of_nat fun _ _ h => UInt8.toNat_inj.mp h).lex

/-- The entry of a map after an assignment. -/
theorem find_assign {α : Type} (m : OrderedMap lessString α) (key k : Text) (x : α) :
    (OrderedMap.assign m key x).find k = if k = key then some (key, x) else m.find k := by
  rw [OrderedMap.assign, Items.find_alter total_less_string]
  split
  · rename_i hk
    cases hfind : m.find key with
    | none => rfl
    | some entry =>
        have hkey : entry.1 = key := by
          rw [Items.find_eq total_less_string] at hfind
          simpa using List.find?_some hfind
        simp [hkey]
  · rfl

/-- The loop that unpacks the entries of an object into a map, where no key comes twice. -/
theorem unpacked_entries {α : Type} {memory : Memory} {t : Packable α} {o : Object}
    {m m' : OrderedMap lessString α} (hnodup : (Object.keys o).Nodup)
    (hnew : ∀ k ∈ Object.keys o, m.find k = none)
    (h : o.foldlM (fun m entry => do
      let x ← t.unpack memory entry.2 (OrderedMap.slot m entry.1 (t.construct .zero))
      return OrderedMap.assign m entry.1 x) m = .ok m') (k : Text) :
    (∀ v, o.find? k = some v →
      ∃ y, t.unpack memory v (t.construct .zero) = .ok y ∧ m'.find k = some (k, y)) ∧
    (o.find? k = none → m'.find k = m.find k) := by
  induction o generalizing m with
  | nil =>
      obtain rfl : m = m' := Except.ok.inj h
      exact ⟨fun v hv => absurd hv (by simp [Object.find?]), fun _ => rfl⟩
  | cons entry o ih =>
      obtain ⟨key, v⟩ := entry
      obtain ⟨hfresh, hrest⟩ := List.nodup_cons.mp hnodup
      rw [List.foldlM_cons] at h
      have hslot : OrderedMap.slot m key (t.construct .zero) = t.construct .zero := by
        unfold OrderedMap.slot
        rw [hnew key List.mem_cons_self]
      cases hy : t.unpack memory v (t.construct .zero) with
      | error e =>
          simp only [hslot, hy] at h
          cases h
      | ok y =>
          simp only [hslot, hy] at h
          -- the keys behind are other ones
          have hother : ∀ k ∈ Object.keys o, (OrderedMap.assign m key y).find k = none := by
            intro k hk
            have hne : k ≠ key := fun heq => hfresh (heq ▸ hk)
            rw [find_assign, if_neg hne]
            exact hnew k (List.mem_cons_of_mem _ hk)
          obtain ⟨hfound, hnot⟩ := ih hrest hother h
          by_cases hk : key = k
          · subst hk
            have hnone := find_none_of_not_mem hfresh
            refine ⟨fun w hw => ?_, fun hw => absurd hw (by simp [Object.find?])⟩
            obtain rfl : v = w := by simpa [Object.find?] using hw
            exact ⟨y, hy, by rw [hnot hnone, find_assign, if_pos rfl]⟩
          · simp only [Object.find?, hk, if_false]
            refine ⟨hfound, fun hw => ?_⟩
            rw [hnot hw, find_assign, if_neg (Ne.symm hk)]

/-- All readers agree where no key is there twice. -/
theorem agrees_iff (o : Object) : o.Agrees ↔ (Object.keys o).Nodup := by
  refine ⟨fun h => h.distinct, fun h => ⟨h, contains_iff o, ?_, ?_, ?_, ?_⟩⟩
  · intro k v hmem
    exact at_eq_ok.mpr (find_entry h hmem)
  · intro memory names α β k fresh t ts x xs v hv
    have hcontains : o.contains k = true := by
      rw [Object.contains, at_eq_ok.mp hv]
      rfl
    rw [Fields.unpack, visitMember, if_pos hcontains, hv]
    rfl
  · intro memory names α β k fresh t ts x xs hk
    rw [Fields.unpack, visitMember, if_neg (mt (contains_iff o k).mp hk)]
    rfl
  · intro memory α t old m hm k
    rw [Packable.unpack] at hm
    rw [show raised (Value.object o).toObject = .ok o from rfl, ok_bind] at hm
    unfold countedLoop at hm
    split at hm
    · obtain ⟨hfound, hnot⟩ := unpacked_entries h (fun _ _ => rfl) hm k
      refine ⟨fun v hv => hfound v (at_eq_ok.mp hv), fun hk => ?_⟩
      rw [hnot (by simpa [Object.contains] using hk)]
      rfl
    · -- the counter of the loop starts over
      obtain ⟨m', -, hthrow⟩ := bind_ok_iff.mp hm
      cases hthrow

/-! ## Values -/

mutual
/-- No object in the value has a key twice. -/
def Distinct : Value → Prop
  | .object keys => (Object.keys keys).Nodup ∧ DistinctMembers keys
  | .array vals => DistinctVals vals
  | _ => True

/-- `Distinct` for the values of an object. -/
def DistinctMembers : List (Text × Value) → Prop
  | [] => True
  | (_, val) :: keys => Distinct val ∧ DistinctMembers keys

/-- `Distinct` for the elements of an array. -/
def DistinctVals : List Value → Prop
  | [] => True
  | val :: vals => Distinct val ∧ DistinctVals vals
end

theorem distinct_members_iff (keys : List (Text × Value)) :
    DistinctMembers keys ↔ ∀ entry ∈ keys, Distinct entry.2 := by
  induction keys with
  | nil => simp [DistinctMembers]
  | cons entry keys ih => simp [DistinctMembers, ih]

theorem distinct_vals_iff (vals : List Value) :
    DistinctVals vals ↔ ∀ val ∈ vals, Distinct val := by
  induction vals with
  | nil => simp [DistinctVals]
  | cons val vals ih => simp [DistinctVals, ih]

/-! ## Texts -/

section Texts

variable [Platform]

mutual
/-- A relaxed text in which no object gives a key twice. -/
inductive OnceText : Text → Prop where
  | null : OnceText (str "null")
  | bool (b : Bool) : OnceText (if b then str "true" else str "false")
  | number (text : Text) : RelaxedNumber text → OnceText text
  | string (text : Text) : RelaxedChars text → OnceText (quoted text)
  | emptyObject (space : Text) : Spaces space → OnceText (ch '{' :: (space ++ [ch '}']))
  | object (body : Text) (names : List Text) : OnceMembers body names → names.Nodup →
      OnceText (ch '{' :: (body ++ [ch '}']))
  | emptyArray (space : Text) : Spaces space → OnceText (ch '[' :: (space ++ [ch ']']))
  | array (body : Text) : OnceElements body → OnceText (ch '[' :: (body ++ [ch ']']))

/-- The members of an object, with their keys. -/
inductive OnceMembers : Text → List Text → Prop where
  | last (before key middle behind text after name : Text) :
      Spaces before → Unescapes key name → Spaces middle → Spaces behind → OnceText text →
      Spaces after →
      OnceMembers (before ++ (quoted key ++ (middle ++ ch ':' :: (behind ++ (text ++ after)))))
        [name]
  | cons (before key middle behind text after body name : Text) (names : List Text) :
      Spaces before → Unescapes key name → Spaces middle → Spaces behind → OnceText text →
      Spaces after → OnceMembers body names →
      OnceMembers (before ++ (quoted key ++
        (middle ++ ch ':' :: (behind ++ (text ++ (after ++ ch ',' :: body)))))) (name :: names)

/-- The elements of an array. -/
inductive OnceElements : Text → Prop where
  | last (before text after : Text) :
      Spaces before → OnceText text → Spaces after → OnceElements (before ++ (text ++ after))
  | cons (before text after body : Text) :
      Spaces before → OnceText text → Spaces after → OnceElements body →
      OnceElements (before ++ (text ++ (after ++ ch ',' :: body)))
end

mutual
/-- Such a text means a value without repeated keys. -/
theorem OnceText.means {text : Text} : OnceText text → ∃ v, Means text v ∧ Distinct v
  | .null => ⟨_, .null, trivial⟩
  | .bool b => ⟨_, .bool b, trivial⟩
  | .number text hn =>
      let ⟨x, hx⟩ := numeral_of hn
      ⟨_, .number text x hx, trivial⟩
  | .string text hc =>
      let ⟨s, hs⟩ := unescapes hc
      ⟨_, .string text s hs, trivial⟩
  | .emptyObject space hs => ⟨_, .emptyObject space hs, List.nodup_nil, trivial⟩
  | .object body _ hbody hnodup =>
      let ⟨keys, hkeys, hnames, hdistinct⟩ := OnceMembers.means hbody
      ⟨_, .object body keys hkeys, hnames ▸ hnodup, hdistinct⟩
  | .emptyArray space hs => ⟨_, .emptyArray space hs, trivial⟩
  | .array body hbody =>
      let ⟨vals, hvals, hdistinct⟩ := OnceElements.means hbody
      ⟨_, .array body vals hvals, hdistinct⟩

theorem OnceMembers.means {body : Text} {names : List Text} : OnceMembers body names →
    ∃ keys, MeansMembers body keys ∧ names = Object.keys keys ∧ DistinctMembers keys
  | .last before key middle behind text after name h1 hk h2 h3 ht h4 =>
      let ⟨v, hv, hdistinct⟩ := OnceText.means ht
      ⟨_, .last before key middle behind text after name v h1 hk h2 h3 hv h4, rfl, hdistinct,
        trivial⟩
  | .cons before key middle behind text after body name names h1 hk h2 h3 ht h4 hbody =>
      let ⟨v, hv, hdistinct⟩ := OnceText.means ht
      let ⟨keys, hkeys, hnames, hothers⟩ := OnceMembers.means hbody
      ⟨_, .cons before key middle behind text after body name v keys h1 hk h2 h3 hv h4 hkeys,
        congrArg (name :: ·) hnames, hdistinct, hothers⟩

theorem OnceElements.means {body : Text} : OnceElements body →
    ∃ vals, MeansElements body vals ∧ DistinctVals vals
  | .last before text after h1 ht h2 =>
      let ⟨v, hv, hdistinct⟩ := OnceText.means ht
      ⟨_, .last before text after v h1 hv h2, hdistinct, trivial⟩
  | .cons before text after body h1 ht h2 hbody =>
      let ⟨v, hv, hdistinct⟩ := OnceText.means ht
      let ⟨vals, hvals, hothers⟩ := OnceElements.means hbody
      ⟨_, .cons before text after body v vals h1 hv h2 hvals, hdistinct, hothers⟩
end

mutual
/-- A value without repeated keys is meant by such a text only. -/
theorem Means.once {text : Text} {v : Value} : Means text v → Distinct v → OnceText text
  | .null, _ => .null
  | .bool b, _ => .bool b
  | .number text _ hn, _ => .number text hn.text
  | .string text _ hs, _ => .string text hs.chars
  | .emptyObject space hs, _ => .emptyObject space hs
  | .object body keys hbody, h => .object body (Object.keys keys) (hbody.once h.2) h.1
  | .emptyArray space hs, _ => .emptyArray space hs
  | .array body _ hbody, h => .array body (hbody.once h)

theorem MeansMembers.once {body : Text} {keys : Object} :
    MeansMembers body keys → DistinctMembers keys → OnceMembers body (Object.keys keys)
  | .last before key middle behind text after name _ h1 hk h2 h3 ht h4, h =>
      .last before key middle behind text after name h1 hk h2 h3 (ht.once h.1) h4
  | .cons before key middle behind text after body name _ keys h1 hk h2 h3 ht h4 hbody, h =>
      .cons before key middle behind text after body name (Object.keys keys) h1 hk h2 h3
        (ht.once h.1) h4 (hbody.once h.2)

theorem MeansElements.once {body : Text} {vals : List Value} :
    MeansElements body vals → DistinctVals vals → OnceElements body
  | .last before text after _ h1 ht h2, h => .last before text after h1 (ht.once h.1) h2
  | .cons before text after body _ _ h1 ht h2 hbody, h =>
      .cons before text after body h1 (ht.once h.1) h2 (hbody.once h.2)
end

/-- No object that the text begins with, behind white space, gives a key twice. -/
def KeysOnce (j : Text) : Prop :=
  ∀ before text rest, j = before ++ (text ++ rest) → Spaces before → JsonText relaxed text →
    OnceText text

/-- What is read from a text that gives every key once has no key twice. -/
theorem distinct_of_keys_once {j : Text} {v : Value} (h : KeysOnce j) (hread : read j = .ok v) :
    Distinct v := by
  obtain ⟨before, text, rest, hj, hbefore, hv⟩ := means_of_read hread
  obtain ⟨w, hw, hdistinct⟩ := (h before text rest hj hbefore hv.text).means
  rw [means_unique hv hw]
  exact hdistinct

/-- Where nothing that is read from a text has a key twice, it gives every key once. -/
theorem keys_once_of_distinct {j : Text} (h : ∀ v, read j = .ok v → Distinct v) : KeysOnce j := by
  rintro before text rest rfl hbefore htext
  obtain ⟨v, hv⟩ := text_means htext
  cases v with
  | null | number | bool | string => exact hv.once trivial
  | object keys | array vals =>
      apply hv.once
      apply h
      unfold read
      rw [json_r_spaces hbefore, reads_means hv (fun x hx => by cases hx)]

end Texts

/-! ## Writers -/

/-- Assignment keeps the keys, or appends a new one. -/
theorem keys_assign (o : Object) (key : Text) (x : Value) :
    Object.keys (o.assign key x) =
      if key ∈ Object.keys o then Object.keys o else Object.keys o ++ [key] := by
  induction o with
  | nil => simp [Object.assign, Object.keys]
  | cons entry o ih =>
      obtain ⟨k, v⟩ := entry
      unfold Object.keys at *
      by_cases hk : k = key
      · simp [Object.assign, hk]
      · simp only [Object.assign, hk, if_false, List.map_cons, ih, List.mem_cons,
          Ne.symm hk, false_or]
        split <;> simp

theorem mem_assign {o : Object} {key : Text} {x : Value} {entry : Text × Value}
    (h : entry ∈ o.assign key x) : entry.2 = x ∨ entry ∈ o := by
  induction o with
  | nil =>
      rw [List.mem_singleton.mp h]
      exact .inl rfl
  | cons first o ih =>
      obtain ⟨k, v⟩ := first
      unfold Object.assign at h
      split at h
      · cases List.mem_cons.mp h with
        | inl heq => exact .inl (by rw [heq])
        | inr hmem => exact .inr (List.mem_cons_of_mem _ hmem)
      · cases List.mem_cons.mp h with
        | inl heq => exact .inr (heq ▸ List.mem_cons_self)
        | inr hmem => exact (ih hmem).imp_right (List.mem_cons_of_mem _)

/-- Assignment does not repeat a key. -/
theorem distinct_assign {o : Object} {x : Value} (h : Distinct (.object o)) (hx : Distinct x)
    (key : Text) : Distinct (.object (o.assign key x)) := by
  obtain ⟨hnodup, hmembers⟩ := h
  rw [distinct_members_iff] at hmembers
  constructor
  · rw [keys_assign]
    split
    · exact hnodup
    · rename_i hnew
      rw [List.nodup_append]
      refine ⟨hnodup, List.nodup_singleton key, ?_⟩
      rintro k hk _ hkey rfl
      exact hnew (List.mem_singleton.mp hkey ▸ hk)
  · rw [distinct_members_iff]
    intro entry hentry
    cases mem_assign hentry with
    | inl heq => exact heq ▸ hx
    | inr hmem => exact hmembers entry hmem

/-- Every value that the decoder returns has the property. -/
def Gives {α : Type} (P : α → Prop) (r : Except Failure α) : Prop := ∀ x, r = .ok x → P x

theorem Gives.ok {α : Type} {P : α → Prop} {x : α} (h : P x) : Gives P (.ok x) := by
  rintro _ hx
  obtain rfl := Except.ok.inj hx
  exact h

theorem Gives.error {α : Type} {P : α → Prop} {e : Failure} : Gives P (.error e : Except _ α) :=
  fun _ hx => absurd hx (by simp)

theorem Gives.bind {α β : Type} {P : α → Prop} {Q : β → Prop} {r : Except Failure α}
    {f : α → Except Failure β} (hr : Gives P r) (hf : ∀ x, P x → Gives Q (f x)) :
    Gives Q (r >>= f) := by
  cases r with
  | error e => exact Gives.error
  | ok x => exact hf x (hr x rfl)

/-- The writer of one item makes no repeated keys in a slot without. -/
def GivesDistinct (item : Value → Except Failure Value) : Prop :=
  ∀ slot, Distinct slot → Gives Distinct (item slot)

/-- The slot of a member repeats no key. -/
theorem distinct_slot {obj : Object} (hobj : Distinct (.object obj)) (name : Text) :
    Distinct ((obj.find? name).getD .null) := by
  cases hfind : obj.find? name with
  | none => exact trivial
  | some w => exact (distinct_members_iff obj).mp hobj.2 (name, w) (mem_of_find hfind)

theorem gives_member {obj : Object} {name : Text} {item : Value → Except Failure Value}
    (hobj : Distinct (.object obj)) (hitem : GivesDistinct item) :
    Gives (fun o => Distinct (.object o)) (packMember obj name item) :=
  (hitem _ (distinct_slot hobj name)).bind fun _ hx => .ok (distinct_assign hobj hx name)

theorem gives_each {α : Type} {item : Value → α → Except Failure Value} {xs : List α}
    (hitem : ∀ x ∈ xs, GivesDistinct (fun slot => item slot x)) {i : UInt32} {a : List Value}
    (ha : DistinctVals a) : Gives DistinctVals (packEach item xs i a) := by
  induction xs generalizing i a with
  | nil => exact .ok ha
  | cons x xs ih =>
      unfold packEach
      split
      · rename_i slot hslot
        have hdistinct := (distinct_vals_iff a).mp ha slot (List.mem_of_getElem? hslot)
        refine (hitem x List.mem_cons_self slot hdistinct).bind fun val hval => ?_
        apply ih fun y hy => hitem y (List.mem_cons_of_mem x hy)
        rw [distinct_vals_iff] at ha ⊢
        intro w hw
        cases List.mem_or_eq_of_mem_set hw with
        | inl hmem => exact ha w hmem
        | inr heq => exact heq ▸ hval
      · exact Gives.error

theorem gives_array {α : Type} {item : Value → α → Except Failure Value} {xs : List α}
    (hitem : ∀ x ∈ xs, GivesDistinct (fun slot => item slot x)) :
    Gives Distinct (packArray item xs) := by
  have hnulls : DistinctVals (List.replicate xs.length .null) := by
    rw [distinct_vals_iff]
    intro w hw
    rw [List.eq_of_mem_replicate hw]
    trivial
  exact (gives_each hitem hnulls).bind fun _ ha => .ok ha

theorem gives_items {α : Type} {item : Value → α → Except Failure Value} {xs : List (Text × α)}
    (hitem : ∀ x ∈ xs, GivesDistinct (fun slot => item slot x.2)) {o : Object}
    (ho : Distinct (.object o)) :
    Gives (fun o => Distinct (.object o)) (packItems item xs o) := by
  induction xs generalizing o with
  | nil => exact .ok ho
  | cons x xs ih =>
      unfold packItems
      refine (gives_member ho (hitem x List.mem_cons_self)).bind fun o' ho' => ?_
      exact ih (fun y hy => hitem y (List.mem_cons_of_mem x hy)) ho'

theorem distinct_empty : Distinct (.object []) := ⟨List.nodup_nil, trivial⟩

theorem gives_pair {α β : Type} {first : Value → α → Except Failure Value}
    {second : Value → β → Except Failure Value} {v : α × β}
    (hfirst : GivesDistinct (fun slot => first slot v.1))
    (hsecond : GivesDistinct (fun slot => second slot v.2)) :
    Gives Distinct (packPair first second v) :=
  (gives_member distinct_empty hfirst).bind fun _ hobj =>
    (gives_member hobj hsecond).bind fun _ hobj' => .ok hobj'

/-- `w` is this `json::value`. -/
def Atomic.Embeds (w : Value) : {α : Type} → Atomic α → α → Prop
  | _, .value, v => v = w
  | _, .bool, _ => False
  | _, .float, _ => False
  | _, .double, _ => False
  | _, .integer _ _, _ => False
  | _, .signedInt, _ => False
  | _, .unsignedInt, _ => False
  | _, .string, _ => False
  | _, .chars, _ => False

mutual
/-- `w` is one of the `json::value`s in a value of the type. -/
def Embeds (w : Value) : {α : Type} → Packable α → α → Prop
  | _, .atomic p, v => p.Embeds w v
  | _, .optional t, v => ∃ x, v = some x ∧ Embeds w t x
  | _, .required t, v => ∃ x, v = some x ∧ Embeds w t x
  | _, .vector t, v => ∃ x ∈ v, Embeds w t x
  | _, .list t, v => ∃ x ∈ v, Embeds w t x
  | _, .set _ t, v => ∃ x ∈ v.items, Embeds w t x
  | _, .stringMap t, v => ∃ x ∈ v.items, Embeds w t x.2
  | _, .map _ k t, v => ∃ x ∈ v.items, Embeds w k x.1 ∨ Embeds w t x.2
  | _, .pair t u, v => Embeds w t v.1 ∨ Embeds w u v.2
  | _, .sequence ts, v => EmbedsParts w ts v
  | _, .struct ts members, v => EmbedsFields w ts (members v)

/-- `Embeds` for the elements of a sequence. -/
def EmbedsParts (w : Value) : {α : Type} → Parts α → α → Prop
  | _, .nil, _ => False
  | _, .cons t ts, v => Embeds w t v.1 ∨ EmbedsParts w ts v.2

/-- `Embeds` for the members of a struct. -/
def EmbedsFields (w : Value) : {names : List Text} → {α : Type} → Fields names α → α → Prop
  | _, _, .nil, _ => False
  | _, _, .cons _ _ t ts, v => Embeds w t v.1 ∨ EmbedsFields w ts v.2
end

theorem Atomic.pack_distinct {α : Type} (p : Atomic α) {slot : Value} {v : α}
    (h : ∀ w, p.Embeds w v → Distinct w) (hslot : Distinct slot) : Distinct (p.pack slot v) := by
  cases p with
  | value => exact h v rfl
  | chars =>
      -- an empty blob leaves the slot as it is
      show Distinct (packBlob slot v)
      unfold packBlob
      split
      · exact trivial
      · exact hslot
  | bool | float | double | integer | signedInt | unsignedInt | string => exact trivial

mutual
/-- `pack` repeats no key that its slot and the `json::value`s it is given do not repeat. -/
theorem pack_distinct {α : Type} (t : Packable α) (slot : Value) (v : α) :
    (∀ w, Embeds w t v → Distinct w) → Distinct slot → Gives Distinct (t.pack slot v) := by
  match t, v with
  | .atomic p, v =>
      intro h hslot
      rw [Packable.pack]
      exact .ok (p.pack_distinct h hslot)
  | .optional t, none =>
      intro _ _
      rw [Packable.pack]
      exact Gives.error
  | .optional t, some x =>
      intro h hslot
      rw [Packable.pack]
      exact pack_distinct t slot x (fun w hw => h w ⟨x, rfl, hw⟩) hslot
  | .required t, none =>
      intro _ _
      rw [Packable.pack]
      exact Gives.error
  | .required t, some x =>
      intro h hslot
      rw [Packable.pack]
      exact pack_distinct t slot x (fun w hw => h w ⟨x, rfl, hw⟩) hslot
  | .vector t, v =>
      intro h _
      rw [Packable.pack]
      exact gives_array fun x hx slot => pack_distinct t slot x fun w hw => h w ⟨x, hx, hw⟩
  | .list t, v =>
      intro h _
      rw [Packable.pack]
      exact gives_array fun x hx slot => pack_distinct t slot x fun w hw => h w ⟨x, hx, hw⟩
  | .set _ t, v =>
      intro h _
      rw [Packable.pack]
      exact gives_array fun x hx slot => pack_distinct t slot x fun w hw => h w ⟨x, hx, hw⟩
  | .stringMap t, v =>
      intro h _
      rw [Packable.pack]
      exact (gives_items (fun x hx slot => pack_distinct t slot x.2 fun w hw => h w ⟨x, hx, hw⟩)
        distinct_empty).bind fun _ ho => .ok ho
  | .map _ k t, v =>
      intro h _
      rw [Packable.pack]
      exact gives_array fun x hx _ _ =>
        gives_pair (fun slot => pack_distinct k slot x.1 fun w hw => h w ⟨x, hx, .inl hw⟩)
          (fun slot => pack_distinct t slot x.2 fun w hw => h w ⟨x, hx, .inr hw⟩)
  | .pair t u, v =>
      intro h _
      rw [Packable.pack]
      exact gives_pair (fun slot => pack_distinct t slot v.1 fun w hw => h w (.inl hw))
        (fun slot => pack_distinct u slot v.2 fun w hw => h w (.inr hw))
  | .sequence ts, v =>
      intro h _
      rw [Packable.pack]
      exact (pack_parts_distinct ts [] v h trivial).bind fun _ ha => .ok ha
  | .struct ts members, v =>
      intro h _
      rw [Packable.pack]
      exact (pack_fields_distinct ts [] (members v) h distinct_empty).bind fun _ ho => .ok ho

theorem pack_parts_distinct {α : Type} (ts : Parts α) (a : List Value) (v : α) :
    (∀ w, EmbedsParts w ts v → Distinct w) → DistinctVals a →
      Gives DistinctVals (ts.pack a v) := by
  match ts, v with
  | .nil, _ =>
      intro _ ha
      rw [Parts.pack]
      exact .ok ha
  | .cons t ts, (x, xs) =>
      intro h ha
      rw [Parts.pack]
      refine (pack_distinct t .null x (fun w hw => h w (.inl hw)) trivial).bind fun val hval => ?_
      refine pack_parts_distinct ts (a ++ [val]) xs (fun w hw => h w (.inr hw)) ?_
      rw [distinct_vals_iff] at ha ⊢
      intro w hw
      cases List.mem_append.mp hw with
      | inl hmem => exact ha w hmem
      | inr hlast => exact List.mem_singleton.mp hlast ▸ hval

theorem pack_fields_distinct {names : List Text} {α : Type} (ts : Fields names α) (obj : Object)
    (v : α) : (∀ w, EmbedsFields w ts v → Distinct w) → Distinct (.object obj) →
      Gives (fun o => Distinct (.object o)) (ts.pack obj v) := by
  match ts, v with
  | .nil, _ =>
      intro _ hobj
      rw [Fields.pack]
      exact .ok hobj
  | .cons name _ t ts, (x, xs) =>
      intro h hobj
      rw [Fields.pack]
      have hmember : Gives (fun o => Distinct (.object o))
          (packHelper (t.unset x) obj name fun slot => t.pack slot x) := by
        unfold packHelper
        split
        · exact .ok hobj
        · exact gives_member hobj fun slot => pack_distinct t slot x fun w hw => h w (.inl hw)
      exact hmember.bind fun obj' hobj' =>
        pack_fields_distinct ts obj' xs (fun w hw => h w (.inr hw)) hobj'
end

/-! ## All ways to make an object -/

variable [Platform]

/-- The values that come into being in a program that reads some texts. -/
inductive Made (texts : Text → Prop) : Value → Prop where
  | read {j : Text} {v : Value} : texts j → read j = .ok v → Made texts v
  | null : Made texts .null
  | number (x : Double) : Made texts (.number x)
  | bool (b : Bool) : Made texts (.bool b)
  | string (text : Text) : Made texts (.string text)
  | array {vals : List Value} : (∀ v ∈ vals, Made texts v) → Made texts (.array vals)
  | empty : Made texts (.object [])
  /-- `obj[key]` -/
  | touch {o : Object} (key : Text) : Made texts (.object o) → Made texts (.object (o.touch key))
  /-- `obj[key] = x` -/
  | assign {o : Object} {x : Value} (key : Text) : Made texts (.object o) → Made texts x →
      Made texts (.object (o.assign key x))
  | member {o : Object} {key : Text} {v : Value} : Made texts (.object o) → (key, v) ∈ o →
      Made texts v
  | element {vals : List Value} {v : Value} : Made texts (.array vals) → v ∈ vals → Made texts v
  | pack {α : Type} (t : Packable α) {slot v : Value} {x : α} :
      (∀ w, Embeds w t x → Made texts w) → Made texts slot → t.pack slot x = .ok v → Made texts v

/-- Where the texts give every key once, nothing repeats a key. -/
theorem distinct_of_made {texts : Text → Prop} (htexts : ∀ j, texts j → KeysOnce j) {v : Value}
    (h : Made texts v) : Distinct v := by
  induction h with
  | read hj hread => exact distinct_of_keys_once (htexts _ hj) hread
  | null | number | bool | string => exact trivial
  | array _ ih => exact (distinct_vals_iff _).mpr ih
  | empty => exact distinct_empty
  | @touch o key _ ih =>
      -- the entry is assigned what it holds
      exact distinct_assign ih (distinct_slot ih key) key
  | assign key _ _ ih hx => exact distinct_assign ih hx key
  | member _ hmem ih => exact (distinct_members_iff _).mp ih.2 _ hmem
  | element _ hmem ih => exact (distinct_vals_iff _).mp ih _ hmem
  | pack t _ _ hpack ih hslot => exact pack_distinct t _ _ ih hslot _ hpack

mutual
/-- Where no object repeats a key, no value does. -/
theorem distinct_of_objects {texts : Text → Prop}
    (h : ∀ o, Made texts (.object o) → (Object.keys o).Nodup) (v : Value) :
    Made texts v → Distinct v := by
  intro hv
  match v with
  | .null | .number _ | .bool _ | .string _ => exact trivial
  | .object keys =>
      exact ⟨h keys hv, distinct_of_members h keys fun key val hmem => hv.member hmem⟩
  | .array vals => exact distinct_of_elements h vals fun val hmem => hv.element hmem

theorem distinct_of_members {texts : Text → Prop}
    (h : ∀ o, Made texts (.object o) → (Object.keys o).Nodup) (keys : List (Text × Value)) :
    (∀ key val, (key, val) ∈ keys → Made texts val) → DistinctMembers keys := by
  intro hkeys
  match keys with
  | [] => exact trivial
  | (key, val) :: keys =>
      exact ⟨distinct_of_objects h val (hkeys key val List.mem_cons_self),
        distinct_of_members h keys fun k w hmem => hkeys k w (List.mem_cons_of_mem _ hmem)⟩

theorem distinct_of_elements {texts : Text → Prop}
    (h : ∀ o, Made texts (.object o) → (Object.keys o).Nodup) (vals : List Value) :
    (∀ val ∈ vals, Made texts val) → DistinctVals vals := by
  intro hvals
  match vals with
  | [] => exact trivial
  | val :: vals =>
      exact ⟨distinct_of_objects h val (hvals val List.mem_cons_self),
        distinct_of_elements h vals fun w hmem => hvals w (List.mem_cons_of_mem _ hmem)⟩
end

/-- In a program that reads some texts all readers of all objects agree if and only if no object
in the texts gives a key twice: what `operator[]` and `pack` make never has a key twice. -/
theorem objects_agree_iff (texts : Text → Prop) :
    (∀ o, Made texts (.object o) → Object.Agrees o) ↔ ∀ j, texts j → KeysOnce j := by
  constructor
  · intro h j hj
    apply keys_once_of_distinct
    intro v hread
    exact distinct_of_objects (fun o ho => (h o ho).distinct) v (.read hj hread)
  · intro htexts o ho
    exact (agrees_iff o).mpr (distinct_of_made htexts ho).1

omit [Platform] in
/-- Of a key that comes twice a lookup finds the first value, and a map keeps the last. -/
theorem repeated_key_read :
    @read (.exact false) (str "\x7b\"a\":true,\"a\":false\x7d") =
        .ok (.object [(str "a", .bool true), (str "a", .bool false)]) ∧
      Object.at [(str "a", .bool true), (str "a", .bool false)] (str "a") = .ok (.bool true) ∧
      (Packable.stringMap (.atomic .bool)).unpack .zero
          (.object [(str "a", .bool true), (str "a", .bool false)]) .empty =
        .ok (.single (str "a", false)) ∧
      ¬ Object.Agrees [(str "a", .bool true), (str "a", .bool false)] := by
  let _ := Platform.exact false
  have hkey : Unescapes (str "a") (str "a") := Unescapes.plain rfl (by decide) (by decide) .nil
  have hlast : MeansMembers (str "\"a\":false") [(str "a", .bool false)] :=
    .last [] (str "a") [] [] (str "false") [] _ _ Spaces.nil hkey Spaces.nil Spaces.nil
      (.bool false) Spaces.nil
  have hboth : MeansMembers (str "\"a\":true,\"a\":false")
      [(str "a", .bool true), (str "a", .bool false)] :=
    .cons [] (str "a") [] [] (str "true") [] _ _ _ _ Spaces.nil hkey Spaces.nil Spaces.nil
      (.bool true) Spaces.nil hlast
  have hread := read_means Spaces.nil (.object _ _ hboth) Spaces.nil
  refine ⟨hread, rfl, ?_, fun h => absurd h.distinct (by decide)⟩
  rw [Packable.unpack]
  rfl

end BoostRpc.Json
