import BoostRpc.Base64
import BoostRpc.Json.TypedRoundTrip

/-!
# Binary blobs

`json::pack` writes a `std::vector<char>` as base64 text, but nothing at all where it is empty, so
that an empty one comes back only where the slot held a fitting text before. `blob_round_trip_iff`
says when a blob comes back: from a slot, as an element of a container and as a member.
-/

namespace BoostRpc.Json

open Base64

variable {α : Type}

/-- `json::pack` of a `std::vector<char>`: what the slot holds afterwards. -/
def packBlob (slot : Value) (data : Text) : Value :=
  if data.length ≠ 0 then .string (base64Encode data (UInt32.ofNat data.length)) else slot

/-- `json::unpack` of a `std::vector<char>`. -/
def unpackBlob (jsv : Value) : Except Failure Text := do
  let encoded ← raised jsv.getString
  match base64Decode encoded with
  | some data => return data
  | none => throw .undefined

/-- `json::unpack` of a `std::vector` into an empty one, on elements of any type. -/
def unpackVector (item : Value → Except Failure α) (jsv : Value) : Except Failure (List α) := do
  let a ← raised jsv.toArray
  countedLoop (fun v val => do
    let x ← item val
    return v ++ [x]) a []

theorem unpack_vector_eq (memory : Memory) (t : JsonType α) (jsv : Value) :
    unpack memory (.vector t) jsv [] =
      unpackVector (fun val => unpack memory t val (construct memory t)) jsv := rfl

/-- `unpack_object_visitor` on a member of any type. -/
def visitMember (item : Value → Except Failure α) (obj : Object) (name : Text) (x : α) :
    Except Failure α :=
  if obj.contains name then do
    let val ← raised (obj.at name)
    item val
  else .ok x

/-- A blob comes back from a slot. -/
def Survives (slot : Value) (data : Text) : Prop := unpackBlob (packBlob slot data) = .ok data

/-- From a text comes what it decodes to. -/
theorem unpack_string_iff {text data : Text} :
    unpackBlob (.string text) = .ok data ↔ base64Decode text = some data := by
  show (match base64Decode text with
    | some data => Except.ok data
    | none => Except.error Failure.undefined) = .ok data ↔ _
  cases base64Decode text <;> simp

/-- A blob survives if and only if its text is not too long, or it is empty and the slot holds a
text of which nothing comes out. -/
theorem survives_iff (slot : Value) (data : Text) :
    Survives slot data ↔
      data ≠ [] ∧ Fits data ∨ data = [] ∧ ∃ text, slot = .string text ∧ Blank text := by
  unfold Survives packBlob
  by_cases hempty : data = []
  · rw [if_neg (by simp [hempty])]
    constructor
    · intro h
      cases slot with
      | string text =>
          rw [unpack_string_iff, hempty, decode_nothing_iff] at h
          exact .inr ⟨hempty, text, rfl, h⟩
      | _ => cases h
    · intro h
      obtain ⟨-, text, rfl, hblank⟩ := h.resolve_left fun hfits => hfits.1 hempty
      rw [unpack_string_iff, hempty, decode_nothing_iff]
      exact hblank
  · rw [if_pos (by simpa using hempty), unpack_string_iff, decode_encode_iff]
    exact ⟨fun h => .inl ⟨hempty, h⟩, fun h => (h.resolve_right fun h' => hempty h'.1).2⟩

/-- From a slot that holds null, every blob that is not empty survives. -/
theorem survives_null_iff (data : Text) : Survives .null data ↔ data ≠ [] ∧ Fits data := by
  rw [survives_iff]
  simp

/-! ## Containers of blobs -/

/-- A loop that collects what it reads. -/
theorem fold_collect_iff {item : γ → Except Failure β} {collect : α → β → α} {es : List γ}
    {m m' : α} :
    es.foldlM (fun m e => item e >>= fun x => Except.ok (collect m x)) m = .ok m' ↔
      ∃ ys, m' = ys.foldl collect m ∧ List.Forall₂ (fun e y => item e = .ok y) es ys := by
  induction es generalizing m with
  | nil =>
      constructor
      · intro h
        obtain rfl := Except.ok.inj h
        exact ⟨[], rfl, .nil⟩
      · rintro ⟨ys, rfl, hys⟩
        cases hys
        rfl
  | cons e es ih =>
      rw [List.foldlM_cons, bind_ok_iff]
      constructor
      · rintro ⟨m₁, hstep, hrest⟩
        obtain ⟨x, hx, hm₁⟩ := bind_ok_iff.mp hstep
        obtain rfl := Except.ok.inj hm₁
        obtain ⟨ys, hm', hys⟩ := ih.mp hrest
        exact ⟨x :: ys, hm', .cons hx hys⟩
      · rintro ⟨ys, hm', hys⟩
        cases hys with
        | @cons _ y _ ys hy hys =>
            refine ⟨collect m y, ?_, ih.mpr ⟨ys, hm', hys⟩⟩
            rw [hy]
            rfl

/-- The loop over an array returns what the elements return. -/
theorem fold_items_iff {item : Value → Except Failure α} {a : List Value} {out : List α}
    (front : List α) :
    a.foldlM (fun v val => do
        let x ← item val
        return v ++ [x]) front = .ok out ↔
      ∃ xs, out = front ++ xs ∧ List.Forall₂ (fun val x => item val = .ok x) a xs := by
  refine fold_collect_iff.trans (exists_congr fun xs => and_congr_left fun _ => ?_)
  rw [List.foldl_append_eq_append, ← List.flatMap_def, List.flatMap_singleton']

/-- Each blob is packed into an element that holds null. -/
theorem pack_blobs {blobs : List Text} (hsize : blobs.length < 2 ^ 32) :
    packArray (fun slot data => .ok (packBlob slot data)) blobs =
      .ok (.array (blobs.map (packBlob .null))) := by
  obtain ⟨vals, hpack, hvals⟩ := packs_array (fun slot data => .ok (packBlob slot data))
    (fun data val => packBlob .null data = val) (fun data _ => ⟨_, rfl, rfl⟩) hsize
  have hmap : List.Forall₂ Eq (blobs.map (packBlob .null)) vals :=
    List.forall₂_map_left_iff.mpr hvals
  rw [List.forall₂_eq_eq_eq] at hmap
  rw [hpack, hmap]

/-- Blobs come back as the elements of a container if and only if each of them survives in an
element that holds null, and the counter of the loop can count them. -/
theorem blobs_round_trip_iff (blobs : List Text) :
    (packArray (fun slot data => .ok (packBlob slot data)) blobs >>= unpackVector unpackBlob) =
        .ok blobs ↔
      blobs.length < 2 ^ 32 ∧ ∀ data ∈ blobs, data ≠ [] ∧ Fits data := by
  by_cases hsize : blobs.length < 2 ^ 32
  · rw [pack_blobs hsize, ok_bind]
    show countedLoop _ (blobs.map (packBlob .null)) [] = _ ↔ _
    rw [counted_loop_of_lt (by rw [List.length_map]; exact hsize), fold_items_iff]
    simp only [List.nil_append, exists_eq_left', List.forall₂_map_left_iff, List.forall₂_same]
    simp only [show ∀ data, (unpackBlob (packBlob .null data) = .ok data ↔ data ≠ [] ∧ Fits data)
      from survives_null_iff]
    exact ⟨fun h => ⟨hsize, h⟩, fun h => h.2⟩
  · refine ⟨fun h => ?_, fun h => absurd h.1 hsize⟩
    obtain ⟨jsv, hpack, hunpack⟩ := bind_ok_iff.mp h
    obtain ⟨a, rfl, hlength⟩ := length_pack_array hpack
    exact absurd hunpack (counted_loop_ne_ok _ _ (hlength ▸ Nat.le_of_not_lt hsize))

/-! ## Members -/

/-- A blob comes back as the member of an object if and only if it survives in the slot that the
object has, or makes, for it. -/
theorem member_round_trip_iff (obj : Object) (name : Text) (data old : Text) :
    (packMember obj name (fun slot => .ok (packBlob slot data)) >>= fun obj =>
        visitMember unpackBlob obj name old) = .ok data ↔
      Survives ((obj.find? name).getD .null) data := by
  have hfind := Object.find_assign_same obj name (packBlob ((obj.find? name).getD .null) data)
  have hpack : packMember obj name (fun slot => .ok (packBlob slot data)) =
      .ok (obj.assign name (packBlob ((obj.find? name).getD .null) data)) := pack_member_ok rfl
  rw [hpack, ok_bind, visitMember, if_pos (by simp [Object.contains]),
    Object.at_of_find hfind]
  exact Iff.rfl

/-- A blob comes back through its base64 text exactly where an `int` can count the text; from a slot
where it is not empty besides, or where it is empty and the slot holds a text of which nothing comes
out; as elements of a container where all of them come back from null; and as a member where it
comes back from what the member holds, which is null where the object does not have it. -/
theorem blob_round_trip_iff (data : Text) (slot : Value) (blobs : List Text) (obj : Object)
    (name old : Text) :
    (base64Decode (base64Encode data (UInt32.ofNat data.length)) = some data ↔ Fits data) ∧
    (unpackBlob (packBlob slot data) = .ok data ↔
      data ≠ [] ∧ Fits data ∨ data = [] ∧ ∃ text, slot = .string text ∧ Blank text) ∧
    ((packArray (fun slot data => .ok (packBlob slot data)) blobs >>= unpackVector unpackBlob) =
        .ok blobs ↔
      blobs.length < 2 ^ 32 ∧ ∀ data ∈ blobs, data ≠ [] ∧ Fits data) ∧
    ((packMember obj name (fun slot => .ok (packBlob slot data)) >>= fun obj =>
        visitMember unpackBlob obj name old) = .ok data ↔
      data ≠ [] ∧ Fits data ∨
        data = [] ∧ ∃ text, obj.find? name = some (.string text) ∧ Blank text) := by
  refine ⟨decode_encode_iff data, survives_iff slot data, blobs_round_trip_iff blobs, ?_⟩
  rw [member_round_trip_iff, survives_iff]
  cases obj.find? name <;> simp

/-- An empty blob in a slot that holds null, as the only element of a container and as the result of
a call: nothing is packed, and the string that is asked for is not there. -/
theorem empty_blob_lost :
    packBlob .null [] = .null ∧ unpackBlob .null = .error (.threw (.thrown .badGet)) ∧
      ¬ Survives .null [] ∧
      (packArray (fun slot data => .ok (packBlob slot data)) [[]] >>= unpackVector unpackBlob) ≠
        .ok [[]] ∧
      (packMember [] (str "result") (fun slot => .ok (packBlob slot [])) >>= fun obj =>
        visitMember unpackBlob obj (str "result") []) ≠ .ok [] := by
  refine ⟨rfl, rfl, ?_, ?_, ?_⟩
  · intro h
    cases h
  · intro h
    have hfits := ((blobs_round_trip_iff [[]]).mp h).2 [] (by simp)
    exact hfits.1 rfl
  · intro h
    have hnull := (member_round_trip_iff [] (str "result") [] []).mp h
    cases hnull

end BoostRpc.Json
