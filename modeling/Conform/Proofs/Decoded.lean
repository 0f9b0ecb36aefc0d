import Conform.Decoded
import Conform.Proofs.JsonEquality

namespace Conform.Decoded

variable {ω : Type}

theorem ofItems_eq_map (items : List Json) : (ofItems items : List (Decoded ω)) = items.map ofJson := by
  induction items with
  | nil => rfl
  | cons item rest ih => simp only [ofItems, List.map_cons, ih]

theorem ofFields_eq_mapWithKey (fields : Fields Json) :
    (ofFields fields : Fields (Decoded ω)) = fields.mapWithKey fun _ value => ofJson value := by
  induction fields with
  | nil => rfl
  | cons entry rest ih => rw [ofFields, ih, Fields.mapWithKey_cons]

theorem itemsToJson_eq_map (items : List (Decoded ω)) : itemsToJson items = items.map toJson := by
  induction items with
  | nil => rfl
  | cons item rest ih => simp only [itemsToJson, List.map_cons, ih]

theorem fieldsToJson_eq_mapWithKey (fields : Fields (Decoded ω)) :
    fieldsToJson fields = fields.mapWithKey fun _ d => d.toJson := by
  induction fields with
  | nil => rfl
  | cons entry rest ih => rw [fieldsToJson, ih, Fields.mapWithKey_cons]

theorem ofJson_arr (items : List Json) : (ofJson (.arr items) : Decoded ω) = .arr (items.map ofJson) := by
  rw [ofJson, ofItems_eq_map]

theorem ofJson_obj (fields : Fields Json) :
    (ofJson (.obj fields) : Decoded ω) = .obj (fields.mapWithKey fun _ value => ofJson value) := by
  rw [ofJson, ofFields_eq_mapWithKey]

theorem toJson_arr (items : List (Decoded ω)) : (Decoded.arr items).toJson = .arr (items.map toJson) := by
  rw [toJson, itemsToJson_eq_map]

theorem toJson_obj (fields : Fields (Decoded ω)) :
    (Decoded.obj fields).toJson = .obj (fields.mapWithKey fun _ d => d.toJson) := by
  rw [toJson, fieldsToJson_eq_mapWithKey]

/-- An object names every key once, and so do its parts. -/
theorem distinct_obj_iff {fields : Fields (Decoded ω)} : (Decoded.obj fields).toJson.Distinct ↔
    (Fields.keys fields).Nodup ∧ ∀ entry ∈ fields, entry.2.toJson.Distinct := by
  rw [toJson_obj, Json.distinct_obj_iff, Fields.keys_mapWithKey]
  refine and_congr_right fun _ => ⟨fun each entry member => ?_, fun each entry member => ?_⟩
  · exact each _ (Fields.mem_mapWithKey.mpr ⟨entry, member, rfl⟩)
  · obtain ⟨old, inFields, rfl⟩ := Fields.mem_mapWithKey.mp member
    exact each old inFields

theorem distinct_mapWithKey {α : Type} {fields : Fields α} (nodup : (Fields.keys fields).Nodup)
    {part : String → α → Decoded ω} (inside : ∀ entry ∈ fields, (part entry.1 entry.2).toJson.Distinct) :
    (Decoded.obj (fields.mapWithKey part)).toJson.Distinct := by
  refine distinct_obj_iff.mpr ⟨Fields.nodup_keys_mapWithKey nodup part, fun entry member => ?_⟩
  obtain ⟨old, inFields, rfl⟩ := Fields.mem_mapWithKey.mp member
  exact inside old inFields

theorem itemsHoldConstructed_eq_any (items : List (Decoded ω)) :
    itemsHoldConstructed items = items.any holdsConstructed := by
  induction items with
  | nil => rfl
  | cons item rest ih => simp only [itemsHoldConstructed, List.any_cons, ih]

theorem fieldsHoldConstructed_eq_any (fields : Fields (Decoded ω)) :
    fieldsHoldConstructed fields = fields.any fun entry => entry.2.holdsConstructed := by
  induction fields with
  | nil => rfl
  | cons entry rest ih => simp only [fieldsHoldConstructed, List.any_cons, ih]

theorem holdsConstructed_arr (items : List (Decoded ω)) :
    (Decoded.arr items).holdsConstructed = items.any holdsConstructed := by
  rw [holdsConstructed, itemsHoldConstructed_eq_any]

theorem holdsConstructed_obj (fields : Fields (Decoded ω)) :
    (Decoded.obj fields).holdsConstructed = fields.any fun entry => entry.2.holdsConstructed := by
  rw [holdsConstructed, fieldsHoldConstructed_eq_any]

/-- A value that was only read holds nothing constructed. -/
theorem holdsConstructed_ofJson (value : Json) : (ofJson value : Decoded ω).holdsConstructed = false := by
  induction value using Json.induction with
  | null | bool _ | num _ | str _ => rfl
  | arr items ih =>
    rw [ofJson_arr, holdsConstructed_arr, List.any_map, List.any_eq_false]
    intro item member
    simp [ih item member]
  | obj fields ih =>
    rw [ofJson_obj, holdsConstructed_obj, List.any_eq_false]
    intro entry member
    obtain ⟨old, inFields, rfl⟩ := Fields.mem_mapWithKey.mp member
    simp [ih old inFields]

end Conform.Decoded
