import Conform.Proofs.Shape.Encode
import Conform.Proofs.Shape.Structural

namespace Conform.Shape

variable {ω : Type}

def hasAttrs : Json → Bool
  | .obj fields => (Fields.get? attrsKey fields).isSome
  | _ => false

mutual

/-- Whether encoding a value as the shape takes an `attrs` away somewhere. -/
def dropsAttrs : Shape ω → Decoded ω → Bool
  | .array element, .arr items => items.any (dropsAttrs element)
  | .union members, d => dropsByFirst members d
  | .object _ props _, .obj fields => fields.any fun entry => (dropsProp props entry.1 entry.2).getD false
  | .intersection _ left right, d => dropsAttrs left d || dropsAttrs right d
  | .withAttrs inner, d => hasAttrs d.toJson || dropsAttrs inner d
  | .ofClass className inner showsAttrs _, d =>
    match d with
    | .constructed other raw _ =>
      if other = className then showsAttrs && hasAttrs raw else dropsAttrs inner d
    | d => dropsAttrs inner d
  | _, _ => false

def dropsByFirst : List (Shape ω) → Decoded ω → Bool
  | [], _ => false
  | member :: rest, d => if is member d then dropsAttrs member d else dropsByFirst rest d

def dropsProp : List (String × Shape ω) → String → Decoded ω → Option Bool
  | [], _, _ => none
  | (declared, shape) :: rest, key, d =>
    (dropsProp rest key d).or (if declared = key then some (dropsAttrs shape d) else none)

end

theorem dropsProp_eq_last? (props : List (String × Shape ω)) (key : String) (d : Decoded ω) :
    dropsProp props key d = (Fields.last? key props).map fun shape => shape.dropsAttrs d := by
  induction props with
  | nil => rfl
  | cons prop rest ih =>
    obtain ⟨declared, shape⟩ := prop
    rw [dropsProp, ih, Fields.last?]
    cases Fields.last? key rest with
    | some later => rfl
    | none => by_cases same : declared = key <;> simp [same]

theorem hasAttrs_obj_iff {fields : Fields Json} : hasAttrs (.obj fields) = true ↔ attrsKey ∈ Fields.keys fields :=
  Fields.get?_isSome_iff

theorem withoutAttrs_eq_self {value : Json} (absent : hasAttrs value = false) : withoutAttrs value = value := by
  cases value with
  | obj fields =>
    have notMem : attrsKey ∉ Fields.keys fields := by
      rw [← hasAttrs_obj_iff, absent]
      exact Bool.false_ne_true
    rw [withoutAttrs, Fields.swapErase_of_not_mem notMem]
  | _ => rfl

theorem withoutAttrs_distinct {value : Json} (distinct : value.Distinct) : (withoutAttrs value).Distinct := by
  cases value with
  | obj fields =>
    obtain ⟨nodup, each⟩ := Json.distinct_obj_iff.mp distinct
    exact Json.distinct_obj_iff.mpr ⟨Fields.nodup_keys_swapErase nodup attrsKey,
      fun entry member => each entry (Fields.mem_of_mem_swapErase member)⟩
  | _ => exact distinct

theorem hasAttrs_withoutAttrs {value : Json} (distinct : value.Distinct) : hasAttrs (withoutAttrs value) = false := by
  cases value with
  | obj fields =>
    rw [withoutAttrs, hasAttrs, Fields.get?_swapErase (Json.distinct_obj_iff.mp distinct).1, if_pos rfl]
    rfl
  | _ => rfl

/-- Values that are equal up to the order of keys have the reserved key together. -/
theorem hasAttrs_of_normal_eq {value plain : Json} (same : value.normal = plain.normal)
    (present : hasAttrs plain = true) : hasAttrs value = true := by
  cases plain with
  | obj fields =>
    obtain ⟨others, rfl, perm⟩ := Json.obj_of_normal_eq same
    have known : attrsKey ∈ Fields.keys fields := hasAttrs_obj_iff.mp present
    exact hasAttrs_obj_iff.mpr (perm.mem_iff.mpr known)
  | _ => cases present

/-- An encoding that differs from a structural view only by the `attrs` that it drops. -/
structure Renders (encoded plain : Json) (drops : Bool) : Prop where
  distinct : encoded.Distinct
  shrinks : hasAttrs encoded = true → hasAttrs plain = true
  same_iff : encoded.normal = plain.normal ↔ drops = false

namespace Renders

theorem refl {plain : Json} (distinct : plain.Distinct) : Renders plain plain false :=
  ⟨distinct, id, by simp⟩

theorem arr {α : Type} {items : List α} {encoded plain : α → Json} {drops : α → Bool}
    (each : ∀ item ∈ items, Renders (encoded item) (plain item) (drops item)) :
    Renders (.arr (items.map encoded)) (.arr (items.map plain)) (items.any drops) where
  distinct := Json.distinct_arr_iff.mpr (List.forall_mem_map.mpr fun item member => (each item member).distinct)
  shrinks impossible := by cases impossible
  same_iff := by
    rw [Json.normal_arr_eq_iff, List.map_map, List.map_map, List.map_inj_left, List.any_eq_false]
    refine forall₂_congr fun item member => ?_
    rw [Bool.not_eq_true, ← (each item member).same_iff]
    rfl

/-- An object loses what its parts lose. -/
theorem obj {α : Type} {fields : Fields α} (nodup : (Fields.keys fields).Nodup) {encoded plain : String → α → Json}
    {drops : String × α → Bool}
    (each : ∀ entry ∈ fields, Renders (encoded entry.1 entry.2) (plain entry.1 entry.2) (drops entry)) :
    Renders (.obj (fields.mapWithKey encoded)) (.obj (fields.mapWithKey plain)) (fields.any drops) where
  distinct := by
    refine Json.distinct_obj_iff.mpr ⟨Fields.nodup_keys_mapWithKey nodup _, fun entry member => ?_⟩
    obtain ⟨old, inFields, rfl⟩ := Fields.mem_mapWithKey.mp member
    exact (each old inFields).distinct
  shrinks := by
    simp only [hasAttrs, Fields.get?_mapWithKey, Option.isSome_map, imp_self]
  same_iff := by
    rw [Json.normal_obj_eq_iff (Fields.nodup_keys_mapWithKey nodup _) (Fields.nodup_keys_mapWithKey nodup _),
      List.any_eq_false]
    simp only [Fields.get?_mapWithKey, Bool.not_eq_true]
    constructor
    · intro same entry member
      have inField := same entry.1
      rw [(Fields.get?_eq_some_iff nodup).mpr member] at inField
      exact (each entry member).same_iff.mp (Option.some.inj inField)
    · intro kept key
      cases found : Fields.get? key fields with
      | none => rfl
      | some v =>
        have member := Fields.mem_of_get? found
        exact congrArg some ((each (key, v) member).same_iff.mpr (kept (key, v) member))

/-- Taking the reserved key away loses it where the value shows it. -/
theorem withoutAttrs {encoded plain : Json} {drops : Bool} (renders : Renders encoded plain drops) :
    Renders (withoutAttrs encoded) plain (hasAttrs plain || drops) := by
  cases present : hasAttrs plain with
  | false =>
    have absent : hasAttrs encoded = false := by
      rw [Bool.eq_false_iff]
      intro known
      rw [renders.shrinks known] at present
      cases present
    rw [withoutAttrs_eq_self absent]
    exact renders
  | true =>
    refine ⟨withoutAttrs_distinct renders.distinct, fun _ => present, fun same => ?_, fun impossible => ?_⟩
    · have kept := hasAttrs_of_normal_eq same present
      rw [hasAttrs_withoutAttrs renders.distinct] at kept
      cases kept
    · cases impossible

/-- Two sides that show a field: each drops what it drops. -/
theorem beside {required optional : List (String × Shape ω)} {key : String} {d : Decoded ω} {left right : Bool}
    (distinct : d.toJson.Distinct) (first : Renders (encodeField required key d) d.toJson left)
    (second : Renders (encodeField optional key d) d.toJson right) :
    Renders (encodeBeside required optional key d) d.toJson (left || right) := by
  rw [encodeBeside]
  split
  · rename_i same
    have keptRight : right = false := second.same_iff.mp (Json.same_iff.mp same).symm
    rw [keptRight, Bool.or_false]
    split
    · rename_i same'
      have keptLeft : left = false := first.same_iff.mp (Json.same_iff.mp same').symm
      rw [keptLeft]
      exact .refl distinct
    · exact first
  · rename_i different
    cases right with
    | false => exact absurd (Json.same_iff.mpr (second.same_iff.mpr rfl).symm) different
    | true =>
      rw [Bool.or_true]
      exact second

end Renders

/-- Encoding as the shape shows a value as it is, up to the `attrs` that it drops. -/
def Rendering (s : Shape ω) : Prop :=
  ∀ d : Decoded ω, d.toJson.Distinct → Renders (s.encode d) d.toJson (s.dropsAttrs d)

theorem Keeps.rendering {s : Shape ω} (keeps : s.Keeps) (plain : ∀ d, s.dropsAttrs d = false) : s.Rendering := by
  intro d distinct
  rw [keeps.encodes, plain]
  exact .refl distinct

theorem array_rendering {element : Shape ω} (inner : element.Rendering) : (array element).Rendering := by
  intro d distinct
  cases d with
  | arr items =>
    rw [Decoded.toJson_arr] at distinct ⊢
    have each := Json.distinct_arr_iff.mp distinct
    exact .arr fun item member => inner item (each _ (List.mem_map_of_mem member))
  | _ => exact .refl distinct

/-- A union is encoded by one of its members, or as it stands. -/
theorem union_rendering {members : List (Shape ω)} (each : ∀ m ∈ members, m.Rendering) :
    (union members).Rendering := by
  intro d distinct
  rw [encode, dropsAttrs]
  induction members with
  | nil => exact .refl distinct
  | cons member rest ih =>
    obtain ⟨first, others⟩ := List.forall_mem_cons.mp each
    rw [encodeByFirst, dropsByFirst]
    cases member.is d with
    | true => exact first d distinct
    | false => exact ih others

section Object

variable {left right : List (String × Shape ω)}

theorem renders_field {props : List (String × Shape ω)} (each : ∀ prop ∈ props, prop.2.Rendering) (key : String)
    {d : Decoded ω} (distinct : d.toJson.Distinct) :
    Renders (encodeField props key d) d.toJson ((dropsProp props key d).getD false) := by
  rw [encodeField, encodeProp_eq_last?, dropsProp_eq_last?]
  cases known : Fields.last? key props with
  | none => exact .refl distinct
  | some shape => exact each (key, shape) (Fields.mem_of_last? known) d distinct

theorem object_rendering {props : List (String × Shape ω)} (each : ∀ prop ∈ props, prop.2.Rendering) (name : String)
    (lenient : Bool) : (object name props lenient).Rendering := by
  intro d distinct
  cases d with
  | obj fields =>
    obtain ⟨nodup, inside⟩ := Decoded.distinct_obj_iff.mp distinct
    rw [encode_object_obj, dropsAttrs, Decoded.toJson_obj]
    exact .obj nodup fun entry member => renders_field each entry.1 (inside entry member)
  | _ => exact .refl distinct

theorem any_or_any {α : Type} (items : List α) (f g : α → Bool) :
    (items.any f || items.any g) = items.any fun item => f item || g item := by
  induction items with
  | nil => rfl
  | cons item rest ih =>
    simp only [List.any_cons, ← ih]
    cases f item <;> cases g item <;> simp

/-- Two sides encoded one after the other lose what either of them loses. -/
theorem both_rendering (eachLeft : ∀ prop ∈ left, prop.2.Rendering) (eachRight : ∀ prop ∈ right, prop.2.Rendering)
    (name leftName rightName : String) (leftLenient rightLenient : Bool) :
    (intersection name (object leftName left leftLenient) (object rightName right rightLenient)).Rendering := by
  intro d distinct
  cases d with
  | obj fields =>
    obtain ⟨nodup, inside⟩ := Decoded.distinct_obj_iff.mp distinct
    rw [encode_intersection_obj nodup, dropsAttrs, dropsAttrs, dropsAttrs, Decoded.toJson_obj, any_or_any]
    apply Renders.obj nodup
    intro entry member
    have first := renders_field eachLeft entry.1 (inside entry member)
    have second := renders_field eachRight entry.1 (inside entry member)
    exact .beside (inside entry member) first second
  | constructed other raw product =>
    -- Both sides show the raw value, which is put over itself.
    have shown : (Decoded.constructed other raw product).toJson = raw := rfl
    rw [shown] at distinct
    rw [encode, shown]
    cases raw with
    | obj plain =>
      have laid := overlay_self (Json.distinct_obj_iff.mp distinct).1
      simp only [encode, shown, laid]
      exact .refl distinct
    | _ => exact .refl distinct
  | _ => exact .refl distinct

end Object

/-- An instance is encoded from its own view, so the class loses no more than the shape under it. -/
theorem ofClass_rendering {inner : Shape ω} (rendering : inner.Rendering) (className : String) (showsAttrs : Bool)
    (construct : Json → Except String (Product ω)) : (ofClass className inner showsAttrs construct).Rendering := by
  intro d distinct
  cases d with
  | constructed other raw product =>
    rw [encode, dropsAttrs]
    by_cases same : other = className
    · simp only [same, if_true]
      cases showsAttrs with
      | false => exact .refl distinct
      | true =>
        have shown := (Renders.refl distinct).withoutAttrs
        rwa [Bool.or_false] at shown
    · simp only [same, if_false]
      exact rendering _ distinct
  | _ => exact rendering _ distinct

/-- What the encoding of a structural shape loses is what `dropsAttrs` says. -/
theorem Structural.rendering {s : Shape ω} (structural : s.Structural) : s.Rendering := by
  induction structural with
  | scalar kind => exact (scalar_keeps kind).rendering fun _ => rfl
  | refine keeps | custom keeps => exact keeps.rendering fun _ => rfl
  | array _ ih => exact array_rendering ih
  | union _ ih => exact union_rendering ih
  | object _ ih => exact object_rendering ih _ _
  | both _ _ ihLeft ihRight => exact both_rendering ihLeft ihRight _ _ _ _ _
  | withAttrs _ ih => exact fun d distinct => (ih d distinct).withoutAttrs
  | ofClass _ ih => exact ofClass_rendering ih _ _ _

/-- What the shape decodes has every key once, as its input has. -/
def KeepsDistinct (s : Shape ω) : Prop :=
  ∀ {input : Json}, input.Distinct → ∀ {here : Position} {d : Decoded ω}, s.validate input here = .ok d →
    d.toJson.Distinct

theorem Keeps.keepsDistinct {s : Shape ω} (keeps : s.Keeps) : s.KeepsDistinct := by
  intro input distinct here d accepted
  rwa [keeps.of_ok accepted, Decoded.toJson_ofJson]

theorem array_keepsDistinct {element : Shape ω} (reporting : element.Reporting) (inner : element.KeepsDistinct) :
    (array element).KeepsDistinct := by
  intro input distinct here d accepted
  cases input with
  | arr items =>
    obtain ⟨parts, rfl, each⟩ := validate_array_eq_ok reporting accepted
    have inside := forall_right_of_forall₂ each fun item member part ⟨place, validated⟩ =>
      inner (Json.distinct_arr_iff.mp distinct item member) validated
    rw [Decoded.toJson_arr]
    exact Json.distinct_arr_iff.mpr (List.forall_mem_map.mpr inside)
  | _ => cases accepted

theorem union_keepsDistinct {members : List (Shape ω)} (each : ∀ m ∈ members, m.KeepsDistinct) :
    (union members).KeepsDistinct := by
  intro input distinct here d accepted
  obtain ⟨before, member, after, rfl, _, validated⟩ := validate_union_eq_ok_iff.mp accepted
  exact each member (by simp) distinct validated

section Object

variable {props left right : List (String × Shape ω)}

/-- An accepted object is rebuilt key by key from parts that keep their keys apart. -/
theorem object_parts_distinct (reporting : ∀ prop ∈ props, prop.2.Reporting)
    (each : ∀ prop ∈ props, prop.2.KeepsDistinct) {name : String} {lenient : Bool} {fields : Fields Json}
    (distinct : (Json.obj fields).Distinct) {here : Position} {d : Decoded ω}
    (accepted : (object name props lenient).validate (.obj fields) here = .ok d) :
    ∃ part : String → Json → Decoded ω, d = .obj (fields.mapWithKey part) ∧
      ∀ entry ∈ fields, (part entry.1 entry.2).toJson.Distinct := by
  obtain ⟨_, parts, same, rfl, _, origin⟩ := validate_object_origin reporting accepted
  cases same
  refine ⟨fun key value => (Fields.last? key parts).getD (.ofJson value), rfl, fun entry member => ?_⟩
  cases last : Fields.last? entry.1 parts with
  | none =>
    simp only [last, Option.getD_none, Decoded.toJson_ofJson]
    exact (Json.distinct_obj_iff.mp distinct).2 entry member
  | some part =>
    obtain ⟨prop, inProps, _, value, present, validated⟩ := origin _ (Fields.mem_of_last? last)
    simp only [last, Option.getD_some]
    exact each prop inProps (distinct.of_get? present) validated

theorem object_keepsDistinct (reporting : ∀ prop ∈ props, prop.2.Reporting)
    (each : ∀ prop ∈ props, prop.2.KeepsDistinct) (name : String) (lenient : Bool) :
    (object name props lenient).KeepsDistinct := by
  intro input distinct here d accepted
  cases input with
  | obj fields =>
    obtain ⟨part, rfl, inside⟩ := object_parts_distinct reporting each distinct accepted
    exact Decoded.distinct_mapWithKey (Json.distinct_obj_iff.mp distinct).1 inside
  | _ => cases accepted

/-- Merging two sides keeps their keys apart. -/
theorem both_keepsDistinct (reportingLeft : ∀ prop ∈ left, prop.2.Reporting)
    (reportingRight : ∀ prop ∈ right, prop.2.Reporting) (eachLeft : ∀ prop ∈ left, prop.2.KeepsDistinct)
    (eachRight : ∀ prop ∈ right, prop.2.KeepsDistinct) (name leftName rightName : String)
    (leftLenient rightLenient : Bool) :
    (intersection name (object leftName left leftLenient) (object rightName right rightLenient)).KeepsDistinct := by
  intro input distinct here d accepted
  obtain ⟨a, b, first, second, rfl⟩ := validate_intersection_eq_ok_iff.mp accepted
  cases input with
  | obj fields =>
    obtain ⟨partLeft, rfl, insideLeft⟩ := object_parts_distinct reportingLeft eachLeft distinct first
    obtain ⟨partRight, rfl, insideRight⟩ := object_parts_distinct reportingRight eachRight distinct second
    have nodup := (Json.distinct_obj_iff.mp distinct).1
    rw [merge_mapWithKey nodup]
    refine Decoded.distinct_mapWithKey nodup fun entry member => ?_
    rw [keepConstructed]
    split
    · exact insideLeft entry member
    · exact insideRight entry member
  | _ => cases first

end Object

theorem addAttrs_distinct {value : Json} (distinct : value.Distinct) : (addAttrs value).Distinct := by
  cases value with
  | obj fields =>
    obtain ⟨nodup, each⟩ := Json.distinct_obj_iff.mp distinct
    exact Json.distinct_obj_iff.mpr ⟨Fields.nodup_keys_insert nodup attrsKey _,
      Fields.forall_mem_insert nodup ⟨List.nodup_nil, trivial⟩ each⟩
  | _ => exact distinct

theorem setAttrs_distinct {d : Decoded ω} (distinct : d.toJson.Distinct) : (setAttrs d).toJson.Distinct := by
  cases d with
  | obj fields =>
    obtain ⟨nodup, inside⟩ := Decoded.distinct_obj_iff.mp distinct
    exact Decoded.distinct_obj_iff.mpr ⟨Fields.nodup_keys_insert nodup attrsKey _,
      Fields.forall_mem_insert nodup ⟨List.nodup_nil, trivial⟩ inside⟩
  | _ => exact distinct

theorem withAttrs_keepsDistinct {inner : Shape ω} (keeps : inner.KeepsDistinct) : (withAttrs inner).KeepsDistinct := by
  intro input distinct here d accepted
  rw [validate] at accepted
  obtain ⟨inside, validated, rfl⟩ := except_map_eq_ok_iff.mp accepted
  exact setAttrs_distinct (keeps distinct validated)

theorem ofClass_keepsDistinct {inner : Shape ω} (rendering : inner.Rendering) (keeps : inner.KeepsDistinct)
    (className : String) (showsAttrs : Bool) (construct : Json → Except String (Product ω)) :
    (ofClass className inner showsAttrs construct).KeepsDistinct := by
  intro input distinct here d accepted
  obtain ⟨structural, product, validated, _, rfl⟩ := validate_ofClass_eq_ok accepted
  have encoded := (rendering structural (keeps distinct validated)).distinct
  rw [Decoded.toJson, handed]
  split
  · exact addAttrs_distinct encoded
  · exact encoded

/-- What a structural shape decodes names every key once when its input does. -/
theorem Structural.keepsDistinct {s : Shape ω} (structural : s.Structural) : s.KeepsDistinct := by
  induction structural with
  | scalar kind => exact (scalar_keeps kind).keepsDistinct
  | refine keeps | custom keeps => exact keeps.keepsDistinct
  | array inner ih => exact array_keepsDistinct inner.reporting ih
  | union _ ih => exact union_keepsDistinct ih
  | object each ih => exact object_keepsDistinct (fun prop member => (each prop member).reporting) ih _ _
  | both eachLeft eachRight ihLeft ihRight =>
    exact both_keepsDistinct (fun prop member => (eachLeft prop member).reporting)
      (fun prop member => (eachRight prop member).reporting) ihLeft ihRight _ _ _ _ _
  | withAttrs _ ih => exact withAttrs_keepsDistinct ih
  | ofClass inner ih => exact ofClass_keepsDistinct inner.rendering ih _ _ _

end Conform.Shape
