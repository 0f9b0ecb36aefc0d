import Conform.Proofs.Shape.Merge
import Conform.Proofs.TypeTree

namespace Conform.Shape

universe u
variable {ω : Type} {α : Type u}

section Membership

theorem someIs_iff {members : List (Shape ω)} {d : Decoded ω} :
    someIs members d = true ↔ ∃ member ∈ members, member.is d = true := by
  induction members with
  | nil => simp [someIs]
  | cons member rest ih => simp [someIs, ih]

theorem is_oneOf (members : List (Shape ω)) (d : Decoded ω) : (oneOf members).is d = someIs members d := by
  match members with
  | [] => rfl
  | [member] => simp [oneOf, someIs]
  | _ :: _ :: _ => rfl

/-- Declared parts belong, and only a lenient object lets one be missing. -/
theorem propsAre_iff {lenient : Bool} {props : List (String × Shape ω)} {fields : Fields (Decoded ω)} :
    propsAre lenient props fields = true ↔ ∀ prop ∈ props,
      (Fields.get? prop.1 fields = none → lenient = true) ∧
        ∀ d, Fields.get? prop.1 fields = some d → prop.2.is d = true := by
  induction props with
  | nil => simp [propsAre]
  | cons prop rest ih =>
    obtain ⟨key, shape⟩ := prop
    rw [List.forall_mem_cons, ← ih, propsAre, Bool.and_eq_true]
    cases Fields.get? key fields <;> simp

theorem is_array_ofJson {element : Shape ω} {items : List Json} :
    (array element).is (.ofJson (.arr items)) = true ↔ ∀ item ∈ items, element.is (.ofJson item) = true := by
  rw [Decoded.ofJson_arr, is, List.all_map, List.all_eq_true]
  rfl

theorem is_object_ofJson {name : String} {props : List (String × Shape ω)} {lenient : Bool} {fields : Fields Json} :
    (object name props lenient).is (.ofJson (.obj fields)) = true ↔ ∀ prop ∈ props,
      (Fields.get? prop.1 fields = none → lenient = true) ∧
        ∀ value, Fields.get? prop.1 fields = some value → prop.2.is (.ofJson value) = true := by
  rw [Decoded.ofJson_obj, is, propsAre_iff]
  simp only [Fields.get?_mapWithKey, Option.map_eq_none_iff, Option.map_eq_some_iff, forall_exists_index, and_imp,
    forall_apply_eq_imp_iff₂]

variable {name : Option String} {attrs : Bool} {required optional : List (String × Shape ω)}

theorem is_ofProps (d : Decoded ω) :
    (ofProps name attrs required optional).is d = (ofParts name required optional).is d := by
  cases attrs <;> rfl

theorem is_ofParts_obj (fields : Fields (Decoded ω)) : (ofParts name required optional).is (.obj fields) =
    (propsAre false required fields && propsAre true optional fields) := by
  cases required with
  | nil => rfl
  | cons first others => cases optional with
    | nil => exact (Bool.and_true _).symm
    | cons => rfl

/-- Only objects belong to an object type. -/
theorem obj_of_is_ofParts {d : Decoded ω} (belongs : (ofParts name required optional).is d = true) :
    ∃ fields, d = .obj fields := by
  cases d with
  | obj fields => exact ⟨fields, rfl⟩
  | _ => cases required with
    | nil => cases belongs
    | cons first others => cases optional <;> cases belongs

end Membership

section Overlay

/-- Puts a field of a part over what was overlaid before, unless it says the same as the plain one. -/
def overlayField (plain out : Fields Json) (entry : String × Json) : Fields Json :=
  match Fields.get? entry.1 plain with
  | some old => if old.same entry.2 then out else Fields.insert entry.1 entry.2 out
  | none => Fields.insert entry.1 entry.2 out

theorem overlayField_append {plain front : Fields Json} {key : String} {old : Json}
    (known : Fields.get? key plain = some old) (absent : key ∉ Fields.keys front) (done part : Json)
    (back : Fields Json) : overlayField plain (front ++ (key, done) :: back) (key, part) =
      front ++ (key, if old.same part then done else part) :: back := by
  simp only [overlayField, known]
  rw [Fields.insert_append_of_not_mem absent]
  simp only [Fields.insert, if_true]
  split <;> rfl

/-- A part is put over an object key by key. -/
theorem overlay_mapWithKey {fields : Fields α} (nodup : (Fields.keys fields).Nodup)
    (plain done part : String → α → Json) :
    overlay (fields.mapWithKey plain) (fields.mapWithKey done) (.obj (fields.mapWithKey part)) =
      fields.mapWithKey fun key v => if (plain key v).same (part key v) then done key v else part key v := by
  have known : ∀ entry ∈ fields,
      Fields.get? entry.1 (fields.mapWithKey plain) = some (plain entry.1 entry.2) := by
    intro entry member
    rw [Fields.get?_mapWithKey, (Fields.get?_eq_some_iff nodup).mpr member, Option.map_some]
  have laid : (fields.mapWithKey part).foldl (overlayField (fields.mapWithKey plain))
      ([] ++ fields.mapWithKey done) =
        [] ++ fields.mapWithKey fun key v => if (plain key v).same (part key v) then done key v else part key v :=
    Fields.foldl_mapWithKey nodup (fun _ _ => List.not_mem_nil)
      fun entry member _ back absent => overlayField_append (known entry member) absent _ _ back
  exact laid

theorem overlay_self {fields : Fields Json} (nodup : (Fields.keys fields).Nodup) :
    overlay fields fields (.obj fields) = fields := by
  have laid := overlay_mapWithKey nodup (fun _ v => v) (fun _ v => v) fun _ v => v
  simpa only [Fields.mapWithKey_id, Json.same_refl, if_true] using laid

end Overlay

section Members

/-- A union encodes by the first member that a value belongs to. -/
theorem encodeByFirst_eq_find? (members : List (Shape ω)) (d : Decoded ω) :
    encodeByFirst members d = (members.find? fun m => m.is d).map fun m => m.encode d := by
  induction members with
  | nil => rfl
  | cons member rest ih =>
    rw [encodeByFirst, List.find?_cons]
    cases member.is d with
    | true => rfl
    | false => exact ih

theorem encodeByFirst_append {before after : List (Shape ω)} {member : Shape ω} {d : Decoded ω}
    (earlier : ∀ other ∈ before, other.is d = false) (belongs : member.is d = true) :
    encodeByFirst (before ++ member :: after) d = some (member.encode d) := by
  induction before with
  | nil => rw [List.nil_append, encodeByFirst, if_pos belongs]
  | cons other rest ih =>
    obtain ⟨here, later⟩ := List.forall_mem_cons.mp earlier
    rw [List.cons_append, encodeByFirst, here, if_neg Bool.false_ne_true, ih later]

/-- A union encodes by the first member that the value belongs to. -/
theorem encode_oneOf_append {before after : List (Shape ω)} {member : Shape ω} {d : Decoded ω}
    (earlier : ∀ other ∈ before, other.is d = false) (belongs : member.is d = true) :
    (oneOf (before ++ member :: after)).encode d = member.encode d := by
  have byFirst : (union (before ++ member :: after)).encode d = member.encode d := by
    rw [encode, encodeByFirst_append earlier belongs, Option.getD_some]
  match before, after with
  | [], [] => rfl
  | [], _ :: _ => exact byFirst
  | [_], _ => exact byFirst
  | _ :: _ :: _, _ => exact byFirst

end Members

section Object

variable {props : List (String × Shape ω)} {key : String} {d : Decoded ω}

/-- A field is encoded by the last declaration of its key, else as its structural view. -/
def encodeField (props : List (String × Shape ω)) (key : String) (d : Decoded ω) : Json :=
  (encodeProp props key d).getD d.toJson

theorem encodeProp_eq_last? (props : List (String × Shape ω)) (key : String) (d : Decoded ω) :
    encodeProp props key d = (Fields.last? key props).map fun shape => shape.encode d := by
  induction props with
  | nil => rfl
  | cons prop rest ih =>
    obtain ⟨declared, shape⟩ := prop
    rw [encodeProp, ih, Fields.last?]
    cases Fields.last? key rest with
    | some later => rfl
    | none => by_cases same : declared = key <;> simp [same]

theorem encodeField_of_mem (nodup : (Fields.keys props).Nodup) {shape : Shape ω} (member : (key, shape) ∈ props) :
    encodeField props key d = shape.encode d := by
  rw [encodeField, encodeProp_eq_last?, Fields.last?_eq_get? nodup, (Fields.get?_eq_some_iff nodup).mpr member]
  rfl

theorem encodeField_of_not_mem (absent : key ∉ Fields.keys props) : encodeField props key d = d.toJson := by
  rw [encodeField, encodeProp_eq_last?, Fields.last?_eq_none_iff.mpr absent]
  rfl

theorem encode_object_obj (name : String) (props : List (String × Shape ω)) (lenient : Bool)
    (fields : Fields (Decoded ω)) :
    (object name props lenient).encode (.obj fields) = .obj (fields.mapWithKey (encodeField props)) := by
  rw [encode]
  rfl

variable {required optional : List (String × Shape ω)}

/-- How a field is encoded by two sides of which each shows what it does not declare as it is. -/
def encodeBeside (required optional : List (String × Shape ω)) (key : String) (d : Decoded ω) : Json :=
  if d.toJson.same (encodeField optional key d) then
    if d.toJson.same (encodeField required key d) then d.toJson else encodeField required key d
  else encodeField optional key d

/-- A key that only the required side declares is encoded by it, up to the order of keys. -/
theorem encodeBeside_of_not_optional (absent : key ∉ Fields.keys optional) :
    (encodeBeside required optional key d).normal = (encodeField required key d).normal := by
  rw [encodeBeside, encodeField_of_not_mem absent, if_pos (Json.same_refl _)]
  split
  · rename_i same
    exact Json.same_iff.mp same
  · rfl

/-- A key that only the optional side declares is encoded by it, up to the order of keys. -/
theorem encodeBeside_of_not_required (absent : key ∉ Fields.keys required) :
    (encodeBeside required optional key d).normal = (encodeField optional key d).normal := by
  rw [encodeBeside, encodeField_of_not_mem absent, if_pos (Json.same_refl _)]
  split
  · rename_i same
    exact Json.same_iff.mp same
  · rfl

/-- Both sides of a record are encoded field by field, one over the other. -/
theorem encode_intersection_obj {fields : Fields (Decoded ω)} (nodup : (Fields.keys fields).Nodup)
    (name leftName rightName : String) (leftLenient rightLenient : Bool) :
    (intersection name (object leftName required leftLenient) (object rightName optional rightLenient)).encode
      (.obj fields) = .obj (fields.mapWithKey (encodeBeside required optional)) := by
  have shown : (Decoded.obj fields).toJson = .obj (fields.mapWithKey fun _ d => d.toJson) := Decoded.toJson_obj fields
  rw [encode, shown]
  simp only [encode_object_obj, overlay_mapWithKey nodup]
  rfl

/-- How a field is encoded where one of the two sides may be missing. -/
def encodeParts : (required optional : List (String × Shape ω)) → String → Decoded ω → Json
  | [], optional => encodeField optional
  | required, [] => encodeField required
  | required, optional => encodeBeside required optional

theorem encode_ofParts_eq {fields : Fields (Decoded ω)} (nodup : (Fields.keys fields).Nodup) (name : Option String) :
    (ofParts name required optional).encode (.obj fields) =
      .obj (fields.mapWithKey (encodeParts required optional)) := by
  cases required with
  | nil => exact encode_object_obj _ optional true fields
  | cons first others => cases optional with
    | nil => exact encode_object_obj _ _ false fields
    | cons => exact encode_intersection_obj nodup _ _ _ false true

/-- A field is encoded by one of the sides, or as its structural view. -/
theorem encodeParts_cases (required optional : List (String × Shape ω)) (key : String) (d : Decoded ω) :
    encodeParts required optional key d = d.toJson ∨ encodeParts required optional key d = encodeField required key d ∨
      encodeParts required optional key d = encodeField optional key d := by
  cases required with
  | nil => exact Or.inr (Or.inr rfl)
  | cons => cases optional with
    | nil => exact Or.inr (Or.inl rfl)
    | cons =>
      show encodeBeside _ _ key d = _ ∨ encodeBeside _ _ key d = _ ∨ encodeBeside _ _ key d = _
      rw [encodeBeside]
      split
      · split
        · exact Or.inl rfl
        · exact Or.inr (Or.inl rfl)
      · exact Or.inr (Or.inr rfl)

theorem encodeParts_of_not_mem (notRequired : key ∉ Fields.keys required) (notOptional : key ∉ Fields.keys optional) :
    encodeParts required optional key d = d.toJson := by
  have bySide := encodeParts_cases required optional key d
  rw [encodeField_of_not_mem notRequired, encodeField_of_not_mem notOptional, or_self, or_self] at bySide
  exact bySide

/-- The `attrs` that the type declares is taken from the fields. -/
theorem encode_ofProps_eq {fields : Fields (Decoded ω)} (nodup : (Fields.keys fields).Nodup) (name : Option String)
    (attrs : Bool) : (ofProps name attrs required optional).encode (.obj fields) =
      if attrs then .obj (Fields.swapErase attrsKey (fields.mapWithKey (encodeParts required optional)))
      else .obj (fields.mapWithKey (encodeParts required optional)) := by
  cases attrs with
  | false => exact encode_ofParts_eq nodup name
  | true =>
    rw [ofProps, if_pos rfl, if_pos rfl, encode, encode_ofParts_eq nodup name]
    rfl

/-- A record is encoded field by field, and the reserved key is taken away where the record declares
it. -/
theorem encode_ofProps_obj {fields : Fields (Decoded ω)} (nodup : (Fields.keys fields).Nodup) (name : Option String)
    (attrs : Bool) : ∃ out : Fields Json, (ofProps name attrs required optional).encode (.obj fields) = .obj out ∧
      (Fields.keys out).Nodup ∧ ∀ key, Fields.get? key out =
        if attrs = true ∧ key = attrsKey then none
        else (Fields.get? key fields).map (encodeParts required optional key) := by
  have written := Fields.nodup_keys_mapWithKey nodup (encodeParts required optional)
  rw [encode_ofProps_eq nodup]
  cases attrs with
  | false =>
    refine ⟨_, rfl, written, fun key => ?_⟩
    simp [Fields.get?_mapWithKey]
  | true =>
    refine ⟨_, rfl, Fields.nodup_keys_swapErase written attrsKey, fun key => ?_⟩
    simp [Fields.get?_swapErase written, Fields.get?_mapWithKey]

/-- A record with one side is encoded as if an empty one stood beside it, up to the order of
keys. -/
theorem encodeParts_normal (required optional : List (String × Shape ω)) (key : String) (d : Decoded ω) :
    (encodeParts required optional key d).normal = (encodeBeside required optional key d).normal := by
  cases required with
  | nil => exact (encodeBeside_of_not_required List.not_mem_nil).symm
  | cons => cases optional with
    | nil => exact (encodeBeside_of_not_optional List.not_mem_nil).symm
    | cons => rfl

/-- The encoding of an object with required and with optional keys, key by key. -/
theorem encode_ofParts_obj {fields : Fields (Decoded ω)} (nodup : (Fields.keys fields).Nodup) (name : Option String) :
    ∃ part : String → Decoded ω → Json,
      (ofParts name required optional).encode (.obj fields) = .obj (fields.mapWithKey part) ∧
        ∀ key d, (part key d).normal = (encodeBeside required optional key d).normal :=
  ⟨_, encode_ofParts_eq nodup name, encodeParts_normal required optional⟩

end Object

end Conform.Shape
