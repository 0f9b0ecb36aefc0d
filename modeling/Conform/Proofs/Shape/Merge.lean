import Conform.Proofs.Decoded
import Conform.Shape.Validate

namespace Conform.Shape

universe u
variable {ω : Type} {α : Type u}

/-- What stays of the values that two sides give to one key. -/
def keepConstructed (left right : Decoded ω) : Decoded ω :=
  if left.holdsConstructed && !right.holdsConstructed then left else right

/-- Puts a field of the right side to the fields of the left side. -/
def mergeField (out : Fields (Decoded ω)) (entry : String × Decoded ω) : Fields (Decoded ω) :=
  match Fields.get? entry.1 out with
  | some kept =>
    if kept.holdsConstructed && !entry.2.holdsConstructed then out else Fields.insert entry.1 entry.2 out
  | none => Fields.insert entry.1 entry.2 out

theorem merge_eq_foldl (left right : Fields (Decoded ω)) :
    merge (.obj left) (.obj right) = .obj (right.foldl mergeField left) := rfl

theorem mergeField_append {front : Fields (Decoded ω)} {key : String} (absent : key ∉ Fields.keys front)
    (left right : Decoded ω) (back : Fields (Decoded ω)) :
    mergeField (front ++ (key, left) :: back) (key, right) = front ++ (key, keepConstructed left right) :: back := by
  rw [mergeField, Fields.get?_append_of_not_mem absent, Fields.insert_append_of_not_mem absent]
  simp only [Fields.get?, Fields.insert, if_true, keepConstructed]
  split <;> rfl

/-- Two decoded copies of one object are merged key by key. -/
theorem merge_mapWithKey {fields : Fields α} (nodup : (Fields.keys fields).Nodup)
    (f g : String → α → Decoded ω) :
    merge (.obj (fields.mapWithKey f)) (.obj (fields.mapWithKey g)) =
      .obj (fields.mapWithKey fun key value => keepConstructed (f key value) (g key value)) := by
  have merged : (fields.mapWithKey g).foldl mergeField ([] ++ fields.mapWithKey f) =
      [] ++ fields.mapWithKey fun key value => keepConstructed (f key value) (g key value) :=
    Fields.foldl_mapWithKey nodup (fun _ _ => List.not_mem_nil)
      fun _ _ _ back absent => mergeField_append absent _ _ back
  rw [merge_eq_foldl]
  exact congrArg Decoded.obj merged

end Conform.Shape
