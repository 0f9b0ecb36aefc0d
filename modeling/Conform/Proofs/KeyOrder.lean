import Conform.Proofs.Along
import Conform.Proofs.Schematic

namespace Conform

variable {ω : Type}

/-- Keys, with `attrs` behind them where it is not among them. -/
def attrsLast (keys : List String) : List String := if attrsKey ∈ keys then keys else keys ++ [attrsKey]

/-- Keys are those of an input in their order, with an `attrs` that it does not have behind them. -/
def ListsKeys (keys inputs : List String) : Prop := keys = inputs ∨ keys = attrsLast inputs

/-- Keys stand in the order of those of an input, with an `attrs` that it does not have behind them. -/
def KeepsOrder (keys inputs : List String) : Prop := keys.Sublist (attrsLast inputs)

/-- The reserved key is put in at the end. -/
theorem keys_putAttrs (attrs : Bool) (fields : Fields (Decoded ω)) :
    Fields.keys (TypeTree.putAttrs attrs fields) = if attrs then attrsLast (Fields.keys fields) else Fields.keys fields := by
  cases attrs with
  | false => rfl
  | true =>
    rw [TypeTree.putAttrs, if_pos rfl, if_pos rfl, attrsLast]
    split
    · rename_i known
      exact Fields.keys_insert_of_mem known _
    · rename_i absent
      rw [Fields.insert_of_not_mem absent, Fields.keys, List.map_append]
      rfl

namespace Shape

section Decode

/-- A shape that decodes an input to a value with the keys of the input in their order. -/
def DecodesAlong (s : Shape ω) : Prop :=
  ∀ {input : Json}, input.Distinct → ∀ {here : Position} {d : Decoded ω}, s.validate input here = .ok d →
    Json.Along ListsKeys input d.toJson

theorem listed_as_read (value : Json) : Json.Along ListsKeys value value :=
  .refl (fun _ => Or.inl rfl) value

theorem array_decodesAlong {element : Shape ω} (reports : element.Reporting) (inner : element.DecodesAlong) :
    (array element).DecodesAlong := by
  intro input distinct here d accepted
  cases input with
  | arr items =>
    obtain ⟨parts, rfl, each⟩ := validate_array_eq_ok reports accepted
    rw [Decoded.toJson_arr]
    refine .arr (List.forall₂_map_right_iff.mpr (forall₂_imp_of_mem each fun item member part _ ⟨_, validated⟩ => ?_))
    exact inner (Json.distinct_arr_iff.mp distinct item member) validated
  | _ => cases accepted

theorem union_decodesAlong {members : List (Shape ω)} (each : ∀ member ∈ members, member.DecodesAlong) :
    (union members).DecodesAlong := by
  intro input distinct here d accepted
  obtain ⟨before, member, after, rfl, _, validated⟩ := validate_union_eq_ok_iff.mp accepted
  exact each member (List.mem_append_right _ List.mem_cons_self) distinct validated

/-- A record lists the keys of its input, in their order, and the reserved one behind them. -/
theorem record_decodesAlong (label : Option String) (attrs : Bool) {decls : List (Property (Shape ω))}
    (each : ∀ p ∈ decls, p.type.DecodesAlong) : (ofDeclared label attrs decls).DecodesAlong := by
  intro input distinct here d accepted
  obtain ⟨fields, rfl⟩ := obj_of_validate_ofProps accepted
  obtain ⟨nodup, inside⟩ := Json.distinct_obj_iff.mp distinct
  obtain ⟨_, rfl⟩ := (validate_ofDeclared_iff nodup).mp accepted
  rw [Decoded.toJson_obj, partsOf]
  refine .obj ?_ fun key part found => ?_
  · rw [Fields.keys_mapWithKey, keys_putAttrs, Fields.keys_mapWithKey]
    cases attrs with
    | false => exact Or.inl rfl
    | true => exact Or.inr rfl
  · rw [Fields.get?_mapWithKey, ← partsOf] at found
    obtain ⟨kept, inParts, rfl⟩ := Option.map_eq_some_iff.mp found
    by_cases put : attrs = true ∧ key = attrsKey
    · obtain ⟨rfl, rfl⟩ := put
      rw [partsOf, TypeTree.putAttrs, if_pos rfl, Fields.get?_insert_self] at inParts
      cases inParts
      exact Or.inr ⟨rfl, rfl⟩
    · rw [get?_partsOf put] at inParts
      obtain ⟨value, known, rfl⟩ := Option.map_eq_some_iff.mp inParts
      refine Or.inl ⟨value, known, ?_⟩
      rcases keptOf_origin decls here key value with same | ⟨p, listed, _, validated⟩
      · rw [same, Decoded.toJson_ofJson]
        exact listed_as_read value
      · exact each p listed (distinct.of_get? known) validated

/-- A decoded value lists the keys of its input. -/
theorem Schematic.decodesAlong {s : Shape ω} (schematic : s.Schematic) : s.DecodesAlong := by
  induction schematic with
  | scalar kind =>
    intro input _ here d accepted
    obtain ⟨_, rfl⟩ := (leaf_scalar kind).of_ok accepted
    rw [Decoded.toJson_ofJson]
    exact listed_as_read input
  | stock kind =>
    intro input _ here d accepted
    obtain ⟨_, rfl⟩ := kind.leaf_shape.of_ok accepted
    rw [kind.toJson_value]
    exact listed_as_read input
  | array inner ih => exact array_decodesAlong inner.reporting ih
  | union _ ih => exact union_decodesAlong ih
  | record _ _ ih => exact record_decodesAlong _ _ ih

end Decode

section Encode

/-- Encoding a value as the shape takes an `attrs` out of an object with these keys. What a required declaration
makes of a field is not shown where an optional one of its name encodes it to something else. -/
inductive TakesFrom : Shape ω → Decoded ω → List String → Prop
  | here {label : Option String} {decls : List (Property (Shape ω))} {d : Decoded ω} {fields : Fields Json}
      (shown : d.toJson = .obj fields) (present : attrsKey ∈ Fields.keys fields) :
      TakesFrom (ofDeclared label true decls) d (Fields.keys fields)
  | item {element : Shape ω} {items : List (Decoded ω)} {item : Decoded ω} {keys : List String} (member : item ∈ items) :
      TakesFrom element item keys → TakesFrom (array element) (.arr items) keys
  | member {members : List (Shape ω)} {member : Shape ω} {d : Decoded ω} {keys : List String}
      (first : members.find? (fun m => m.is d) = some member) :
      TakesFrom member d keys → TakesFrom (union members) d keys
  | optional {label : Option String} {attrs : Bool} {decls : List (Property (Shape ω))} {fields : Fields (Decoded ω)}
      {key : String} {part : Decoded ω} {shape : Shape ω} {keys : List String} (member : (key, part) ∈ fields)
      (other : key ≠ attrsKey) (last : Fields.last? key (side true decls) = some shape) :
      TakesFrom shape part keys → TakesFrom (ofDeclared label attrs decls) (.obj fields) keys
  | required {label : Option String} {attrs : Bool} {decls : List (Property (Shape ω))} {fields : Fields (Decoded ω)}
      {key : String} {part : Decoded ω} {shape : Shape ω} {keys : List String} (member : (key, part) ∈ fields)
      (other : key ≠ attrsKey) (last : Fields.last? key (side false decls) = some shape)
      (beside : part.toJson.same (encodeField (side true decls) key part) = true) :
      TakesFrom shape part keys → TakesFrom (ofDeclared label attrs decls) (.obj fields) keys

def takeAttrs (attrs : Bool) (fields : Fields Json) : Fields Json :=
  if attrs then Fields.swapErase attrsKey fields else fields

variable {label : Option String} {attrs : Bool} {decls : List (Property (Shape ω))}

/-- A record is written key by key, and the reserved key is taken out of the result. -/
theorem encode_ofDeclared_obj {fields : Fields (Decoded ω)} (nodup : (Fields.keys fields).Nodup) :
    (ofDeclared label attrs decls).encode (.obj fields) =
      .obj (takeAttrs attrs (fields.mapWithKey (writtenOf decls))) := by
  rw [ofDeclared, encode_ofProps_eq nodup]
  cases attrs <;> rfl

theorem encode_ofParts_of_ne_obj {name : Option String} {required optional : List (String × Shape ω)} {d : Decoded ω}
    (distinct : d.toJson.Distinct) (other : ∀ fields, d ≠ .obj fields) :
    (ofParts name required optional).encode d = d.toJson := by
  have alone (name : String) (props : List (String × Shape ω)) (lenient : Bool) :
      (object name props lenient).encode d = d.toJson := by
    cases d with
    | obj fields => exact absurd rfl (other fields)
    | _ => rfl
  cases required with
  | nil => exact alone _ optional true
  | cons first others => cases optional with
    | nil => exact alone _ _ false
    | cons =>
      -- Both sides show the value as it is, which is put over itself.
      rw [ofParts_both name (List.cons_ne_nil _ _) (List.cons_ne_nil _ _), both, encode, strict, lenient, alone, alone]
      cases shown : d.toJson with
      | obj plain =>
        rw [shown] at distinct
        simp only [overlay_self (Json.distinct_obj_iff.mp distinct).1]
      | _ => rfl

/-- What is no object is shown by an object type as it is, but for an `attrs` in what it stands for. -/
theorem encode_ofDeclared_of_ne_obj {d : Decoded ω} (distinct : d.toJson.Distinct) (other : ∀ fields, d ≠ .obj fields) :
    (ofDeclared label attrs decls).encode d = if attrs then withoutAttrs d.toJson else d.toJson := by
  have parts := @encode_ofParts_of_ne_obj ω label (side false decls) (side true decls) d distinct other
  cases attrs with
  | false => exact parts
  | true =>
    rw [ofDeclared, ofProps, if_pos rfl, encode, parts]
    rfl

section Field

variable {required optional : List (String × Shape ω)} {key : String} {d : Decoded ω} {s : Shape ω}

theorem encodeParts_of_optional (differs : d.toJson.same (encodeField optional key d) = false) :
    encodeParts required optional key d = encodeField optional key d := by
  cases required with
  | nil => rfl
  | cons => cases optional with
    | nil => exact absurd (Json.same_refl _) (Bool.eq_false_iff.mp differs)
    | cons =>
      show encodeBeside _ _ key d = _
      rw [encodeBeside, differs, if_neg Bool.false_ne_true]

/-- The encoding of the required side stays where only it differs from the plain part. -/
theorem encodeParts_of_required (beside : d.toJson.same (encodeField optional key d) = true)
    (differs : d.toJson.same (encodeField required key d) = false) :
    encodeParts required optional key d = encodeField required key d := by
  cases required with
  | nil => exact absurd (Json.same_refl _) (Bool.eq_false_iff.mp differs)
  | cons => cases optional with
    | nil => rfl
    | cons =>
      show encodeBeside _ _ key d = _
      rw [encodeBeside, if_pos beside, differs, if_neg Bool.false_ne_true]

/-- The required side is shown only where the optional one changes nothing. -/
theorem encodeParts_origin (required optional : List (String × Shape ω)) (key : String) (d : Decoded ω) :
    encodeParts required optional key d = d.toJson ∨
      encodeParts required optional key d = encodeField optional key d ∨
        d.toJson.same (encodeField optional key d) = true ∧
          encodeParts required optional key d = encodeField required key d := by
  cases beside : d.toJson.same (encodeField optional key d) with
  | false => exact Or.inr (Or.inl (encodeParts_of_optional beside))
  | true =>
    have bySide := encodeParts_cases required optional key d
    rcases bySide with plain | first | second
    · exact Or.inl plain
    · exact Or.inr (Or.inr ⟨rfl, first⟩)
    · exact Or.inr (Or.inl second)

theorem encodeField_eq_last? (props : List (String × Shape ω)) (key : String) (d : Decoded ω) :
    encodeField props key d = ((Fields.last? key props).map fun s => s.encode d).getD d.toJson := by
  rw [encodeField, encodeProp_eq_last?]

theorem encodeField_of_last? {props : List (String × Shape ω)} (last : Fields.last? key props = some s) :
    encodeField props key d = s.encode d := by
  rw [encodeField_eq_last?, last]
  rfl

/-- A field is shown as it is or as the last declaration of a side encodes it. -/
theorem writtenOf_origin (decls : List (Property (Shape ω))) (key : String) (d : Decoded ω) :
    writtenOf decls key d = d.toJson ∨
      (∃ s, Fields.last? key (side true decls) = some s ∧ writtenOf decls key d = s.encode d) ∨
      ∃ s, Fields.last? key (side false decls) = some s ∧
        d.toJson.same (encodeField (side true decls) key d) = true ∧ writtenOf decls key d = s.encode d := by
  rcases encodeParts_origin (side false decls) (side true decls) key d with plain | second | ⟨beside, first⟩
  · exact Or.inl plain
  · cases last : Fields.last? key (side true decls) with
    | none =>
      rw [encodeField_eq_last?, last] at second
      exact Or.inl second
    | some s =>
      rw [encodeField_of_last? last] at second
      exact Or.inr (Or.inl ⟨s, rfl, second⟩)
  · cases last : Fields.last? key (side false decls) with
    | none =>
      rw [encodeField_eq_last?, last] at first
      exact Or.inl first
    | some s =>
      rw [encodeField_of_last? last] at first
      exact Or.inr (Or.inr ⟨s, rfl, beside, first⟩)

theorem declared_of_last? (unreserved : ∀ p ∈ decls, p.name ≠ attrsKey) {optional : Bool}
    (last : Fields.last? key (side optional decls) = some s) : ∃ p ∈ decls, key ≠ attrsKey ∧ p.type = s := by
  obtain ⟨p, listed, _, same⟩ := mem_side.mp (Fields.mem_of_last? last)
  cases same
  exact ⟨p, listed, unreserved p listed, rfl⟩

end Field

/-- What is taken out of an object, with at most one key behind it, leaves the other keys in their order. -/
theorem along_takeAttrs {α : Type} {fields : Fields α} (nodup : (Fields.keys fields).Nodup) {shown written : String → α → Json}
    (each : ∀ entry ∈ fields, Json.Along List.Sublist (shown entry.1 entry.2)
      (written entry.1 entry.2))
    (near : attrs = true → attrsKey ∈ Fields.keys fields → Fields.NearEnd attrsKey (Fields.keys fields)) :
    Json.Along List.Sublist (.obj (fields.mapWithKey shown))
      (.obj (takeAttrs attrs (fields.mapWithKey written))) := by
  have nodupWritten := Fields.nodup_keys_mapWithKey nodup written
  refine .obj ?_ fun key part found => ?_
  · rw [takeAttrs, Fields.keys_mapWithKey]
    split
    · rename_i taken
      have nearEnd : Fields.NearEnd attrsKey (Fields.keys fields) := by
        by_cases known : attrsKey ∈ Fields.keys fields
        · exact near taken known
        · exact Fields.nearEnd_of_not_mem known
      rw [Fields.swapErase_mapWithKey, Fields.keys_mapWithKey]
      exact (Fields.keys_swapErase_sublist_iff nodup attrsKey).mpr nearEnd
    · rw [Fields.keys_mapWithKey]
  · have inWritten : Fields.get? key (fields.mapWithKey written) = some part := by
      rw [takeAttrs] at found
      split at found
      · rw [Fields.get?_swapErase nodupWritten] at found
        exact (Option.ite_none_left_eq_some.mp found).2
      · exact found
    rw [Fields.get?_mapWithKey] at inWritten
    obtain ⟨v, known, rfl⟩ := Option.map_eq_some_iff.mp inWritten
    refine Or.inl ⟨shown key v, by rw [Fields.get?_mapWithKey, known, Option.map_some], ?_⟩
    exact each (key, v) (Fields.mem_of_get? known)

/-- A shape whose encoding keeps the order of the keys of what it shows, if at most one key stands behind each
`attrs` that it takes out. -/
def EncodesAlong (s : Shape ω) : Prop :=
  ∀ {d : Decoded ω}, d.toJson.Distinct → (∀ keys, s.TakesFrom d keys → Fields.NearEnd attrsKey keys) →
    Json.Along List.Sublist d.toJson (s.encode d)

theorem ordered_as_shown (value : Json) : Json.Along List.Sublist value value :=
  .refl List.Sublist.refl value

theorem stock_encodesAlong (kind : Stock) : (kind.shape : Shape ω).EncodesAlong := by
  intro d _ _
  cases kind with
  | date =>
    rw [Stock.shape, Builtin.date, encode, Builtin.date.encode]
    cases d.instant? with
    | some moment =>
      exact .of_steps (fun _ same => by cases same) fun k _ leads => by cases k <;> cases leads
    | none => exact ordered_as_shown _
  | latitude | longitude | nonEmptyString => exact ordered_as_shown _

theorem array_encodesAlong {element : Shape ω} (inner : element.EncodesAlong) : (array element).EncodesAlong := by
  intro d distinct near
  cases d with
  | arr items =>
    rw [Decoded.toJson_arr] at distinct ⊢
    rw [encode]
    refine .arr (List.forall₂_map_left_iff.mpr (List.forall₂_map_right_iff.mpr (List.forall₂_same.mpr ?_)))
    intro item member
    exact inner (Json.distinct_arr_iff.mp distinct _ (List.mem_map_of_mem member)) fun keys takes =>
      near keys (.item member takes)
  | _ => exact ordered_as_shown _

/-- A union writes as one of its members does, or writes the value as it is. -/
theorem union_encodesAlong {members : List (Shape ω)} (each : ∀ member ∈ members, member.EncodesAlong) :
    (union members).EncodesAlong := by
  intro d distinct near
  rw [encode, encodeByFirst_eq_find?]
  cases first : members.find? fun m => m.is d with
  | none => exact ordered_as_shown _
  | some member =>
    exact each member (List.mem_of_find?_eq_some first) distinct fun keys takes => near keys (.member first takes)

theorem record_encodes_other_along {d : Decoded ω} (distinct : d.toJson.Distinct) (other : ∀ fields, d ≠ .obj fields)
    (near : ∀ keys, (ofDeclared label attrs decls).TakesFrom d keys → Fields.NearEnd attrsKey keys) :
    Json.Along List.Sublist d.toJson ((ofDeclared label attrs decls).encode d) := by
  rw [encode_ofDeclared_of_ne_obj distinct other]
  cases attrs with
  | false => exact ordered_as_shown _
  | true =>
    cases shown : d.toJson with
    | obj fields =>
      have nodup := (Json.distinct_obj_iff.mp (shown ▸ distinct)).1
      have along : Json.Along List.Sublist (.obj (Fields.mapWithKey (fun _ v => v) fields))
          (.obj (takeAttrs true (Fields.mapWithKey (fun _ v => v) fields))) :=
        along_takeAttrs nodup (fun entry _ => ordered_as_shown entry.2) fun _ known => near _ (.here shown known)
      rw [Fields.mapWithKey_id] at along
      exact along
    | _ => exact ordered_as_shown _

section Record

variable (unreserved : ∀ p ∈ decls, p.name ≠ attrsKey)

include unreserved

/-- A record keeps the order of the keys that it shows where the reserved key is near the end
whenever it is taken out. -/
theorem record_encodes_obj_along (each : ∀ p ∈ decls, p.type.EncodesAlong) {fields : Fields (Decoded ω)}
    (distinct : (Decoded.obj fields).toJson.Distinct)
    (near : ∀ keys, (ofDeclared label attrs decls).TakesFrom (.obj fields) keys → Fields.NearEnd attrsKey keys) :
    Json.Along List.Sublist (Decoded.obj fields).toJson ((ofDeclared label attrs decls).encode (.obj fields)) := by
  obtain ⟨nodup, inside⟩ := Decoded.distinct_obj_iff.mp distinct
  have nearHere : attrs = true → attrsKey ∈ Fields.keys fields → Fields.NearEnd attrsKey (Fields.keys fields) := by
    rintro rfl known
    rw [← Fields.keys_mapWithKey (fun _ => Decoded.toJson) fields] at known ⊢
    exact near _ (.here (Decoded.toJson_obj fields) known)
  rw [Decoded.toJson_obj, encode_ofDeclared_obj nodup]
  refine along_takeAttrs nodup (fun entry member => ?_) nearHere
  have distinctPart := inside entry member
  rcases writtenOf_origin decls entry.1 entry.2 with plain | ⟨s, last, written⟩ | ⟨s, last, beside, written⟩
  · rw [plain]
    exact ordered_as_shown _
  · obtain ⟨p, listed, different, rfl⟩ := declared_of_last? unreserved last
    rw [written]
    exact each p listed distinctPart fun keys takes => near keys (.optional member different last takes)
  · obtain ⟨p, listed, different, rfl⟩ := declared_of_last? unreserved last
    rw [written]
    exact each p listed distinctPart fun keys takes => near keys (.required member different last beside takes)

/-- A record keeps the order of keys where its parts do. -/
theorem record_encodesAlong (each : ∀ p ∈ decls, p.type.EncodesAlong) :
    (ofDeclared label attrs decls).EncodesAlong := by
  intro d distinct near
  by_cases isObj : ∃ fields, d = .obj fields
  · obtain ⟨fields, rfl⟩ := isObj
    exact record_encodes_obj_along unreserved each distinct near
  · exact record_encodes_other_along distinct (fun fields same => isObj ⟨fields, same⟩) near

end Record

/-- A schematic shape keeps the order of keys as far as the reserved key lets it: by induction on
the shape. -/
theorem Schematic.encodesAlong {s : Shape ω} (schematic : s.Schematic) : s.EncodesAlong := by
  induction schematic with
  | scalar kind =>
    intro d _ _
    rw [encode]
    exact ordered_as_shown _
  | stock kind => exact stock_encodesAlong kind
  | array _ ih => exact array_encodesAlong ih
  | union _ ih => exact union_encodesAlong ih
  | record unreserved _ ih => exact record_encodesAlong unreserved ih

theorem get?_takeAttrs {fields : Fields Json} (nodup : (Fields.keys fields).Nodup) {key : String} (other : key ≠ attrsKey) :
    Fields.get? key (takeAttrs attrs fields) = Fields.get? key fields := by
  cases attrs with
  | false => rfl
  | true => rw [takeAttrs, if_pos rfl, Fields.get?_swapErase nodup, if_neg other]

section Loses

variable {fields : Fields (Decoded ω)} {key : String} {part : Decoded ω}

theorem follow?_toJson_field (nodup : (Fields.keys fields).Nodup) (member : (key, part) ∈ fields) (path : List Key) :
    (Decoded.obj fields).toJson.follow? (.field key :: path) = part.toJson.follow? path := by
  rw [Decoded.toJson_obj, Json.follow?, Fields.get?_mapWithKey, (Fields.get?_eq_some_iff nodup).mpr member,
    Option.map_some, Option.bind_some]

/-- Below a key that is not reserved the encoding of a record is that of the part under it. -/
theorem follow?_encode_field (nodup : (Fields.keys fields).Nodup) (member : (key, part) ∈ fields)
    (other : key ≠ attrsKey) (path : List Key) : ((ofDeclared label attrs decls).encode (.obj fields)).follow?
      (.field key :: path) = (writtenOf decls key part).follow? path := by
  rw [encode_ofDeclared_obj nodup, Json.follow?, get?_takeAttrs (Fields.nodup_keys_mapWithKey nodup _) other,
    Fields.get?_mapWithKey, (Fields.get?_eq_some_iff nodup).mpr member, Option.map_some, Option.bind_some]

/-- An object with these keys has an `attrs` that is taken out of the one that stands in its place. -/
def LosesAttrs (shown out : Json) (keys : List String) : Prop :=
  ∃ (path : List Key) (fields outs : Fields Json), shown.follow? path = some (.obj fields) ∧
    out.follow? path = some (.obj outs) ∧ attrsKey ∈ Fields.keys fields ∧ Fields.keys fields = keys ∧
    Fields.keys outs = Fields.keys (Fields.swapErase attrsKey fields)

/-- What lacks an `attrs` that something has does not equal it. -/
theorem LosesAttrs.differs {shown out : Json} {keys : List String} (loses : LosesAttrs shown out keys)
    (distinct : shown.Distinct) : shown.same out = false := by
  obtain ⟨path, fields, outs, leads, leadsOut, present, _, taken⟩ := loses
  rw [Bool.eq_false_iff]
  intro same
  obtain ⟨others, leadsOthers, perm⟩ := Json.follow?_of_normal_eq distinct (Json.same_iff.mp same).symm leads
  cases leadsOut.symm.trans leadsOthers
  have nodup := (Json.distinct_obj_iff.mp (distinct.follow? leads)).1
  have absent : attrsKey ∉ Fields.keys (Fields.swapErase attrsKey fields) := by
    rw [← Fields.get?_eq_none_iff, Fields.get?_swapErase nodup, if_pos rfl]
  exact absent (taken ▸ perm.mem_iff.mpr present)

/-- What a field loses as a side encodes it, the object loses: that side is the one that is shown. -/
theorem LosesAttrs.field {optional : Bool} {shape : Shape ω} {keys : List String}
    (loses : LosesAttrs part.toJson (shape.encode part) keys) (distinct : (Decoded.obj fields).toJson.Distinct)
    (member : (key, part) ∈ fields) (other : key ≠ attrsKey)
    (last : Fields.last? key (side optional decls) = some shape)
    (shownBy : part.toJson.same (encodeField (side optional decls) key part) = false →
      writtenOf decls key part = encodeField (side optional decls) key part) :
    LosesAttrs (Decoded.obj fields).toJson ((ofDeclared label attrs decls).encode (.obj fields)) keys := by
  obtain ⟨nodup, inside⟩ := Decoded.distinct_obj_iff.mp distinct
  have differs := loses.differs (inside _ member)
  rw [← encodeField_of_last? last] at differs
  have written : writtenOf decls key part = shape.encode part :=
    (shownBy differs).trans (encodeField_of_last? last)
  obtain ⟨path, found, outs, leads, leadsOut, taken⟩ := loses
  refine ⟨.field key :: path, found, outs, ?_, ?_, taken⟩
  · rw [follow?_toJson_field nodup member, leads]
  · rw [follow?_encode_field nodup member other, written, leadsOut]

end Loses

/-- Where an `attrs` is taken out of an object, the encoding has the object without it. -/
theorem TakesFrom.loses {s : Shape ω} {d : Decoded ω} {keys : List String} (takes : s.TakesFrom d keys) :
    d.toJson.Distinct → LosesAttrs d.toJson (s.encode d) keys := by
  induction takes with
  | @here label decls d fields shown present =>
    intro distinct
    refine ⟨[], fields, ?_⟩
    -- What is shown as an object need not be one: an instance may look like an object too.
    by_cases isObj : ∃ parts, d = .obj parts
    · obtain ⟨parts, rfl⟩ := isObj
      rw [encode_ofDeclared_obj (Decoded.distinct_obj_iff.mp distinct).1]
      rw [Decoded.toJson_obj] at shown
      cases shown
      refine ⟨_, by rw [Decoded.toJson_obj]; rfl, rfl, present, rfl, ?_⟩
      rw [takeAttrs, if_pos rfl, Fields.swapErase_mapWithKey, Fields.swapErase_mapWithKey, Fields.keys_mapWithKey,
        Fields.keys_mapWithKey]
    · rw [encode_ofDeclared_of_ne_obj distinct fun parts same => isObj ⟨parts, same⟩, if_pos rfl, shown]
      exact ⟨_, rfl, rfl, present, rfl, rfl⟩
  | @item element items item keys member _ ih =>
    intro distinct
    obtain ⟨place, inside, rfl⟩ := List.mem_iff_getElem.mp member
    rw [Decoded.toJson_arr] at distinct ⊢
    obtain ⟨path, fields, outs, leads, leadsOut, taken⟩ :=
      ih (Json.distinct_arr_iff.mp distinct _ (List.mem_map_of_mem member))
    refine ⟨.index place :: path, fields, outs, ?_, ?_, taken⟩
    · simpa [Json.follow?, inside] using leads
    · simpa [encode, Json.follow?, inside] using leadsOut
  | @member members member d keys first _ ih =>
    intro distinct
    rw [encode, encodeByFirst_eq_find?, first]
    exact ih distinct
  | optional member other last _ ih =>
    intro distinct
    have inside := (Decoded.distinct_obj_iff.mp distinct).2
    exact (ih (inside _ member)).field distinct member other last encodeParts_of_optional
  | required member other last beside _ ih =>
    intro distinct
    have inside := (Decoded.distinct_obj_iff.mp distinct).2
    exact (ih (inside _ member)).field distinct member other last (encodeParts_of_required beside)

end Encode

section Order

variable {s : Shape ω} {input : Json} {here : Position} {d : Decoded ω}

theorem sublist_attrsLast (inputs : List String) : inputs.Sublist (attrsLast inputs) := by
  rw [attrsLast]
  split
  · exact List.Sublist.refl inputs
  · exact List.sublist_append_left inputs _

/-- What keeps the order of a decoded value keeps that of its input. -/
theorem keepsOrder_of_along {shown out : Json} (first : Json.Along ListsKeys input shown)
    (second : Json.Along List.Sublist shown out) : Json.Along KeepsOrder input out := by
  intro path outs leads
  rcases second path outs leads with ⟨fields, leadsShown, within⟩ | added
  · rcases first path fields leadsShown with ⟨inputs, leadsInput, same | same⟩ | ⟨rfl, last⟩
    · rw [same] at within
      exact Or.inl ⟨inputs, leadsInput, within.trans (sublist_attrsLast _)⟩
    · rw [same] at within
      exact Or.inl ⟨inputs, leadsInput, within⟩
    · exact Or.inr ⟨List.map_eq_nil_iff.mp (List.sublist_nil.mp within), last⟩
  · exact Or.inr added

/-- A decoded value is encoded in the order of its input exactly where at most one key stands behind each `attrs`
that is taken out. -/
theorem Schematic.keepsOrder_iff (schematic : s.Schematic) (distinct : input.Distinct)
    (accepted : s.validate input here = .ok d) :
    Json.Along KeepsOrder input (s.encode d) ↔ ∀ keys, s.TakesFrom d keys → Fields.NearEnd attrsKey keys := by
  have distinctShown := schematic.keepsDistinct distinct accepted
  have lists := schematic.decodesAlong distinct accepted
  refine ⟨fun keeps keys takes => ?_, fun near => keepsOrder_of_along lists (schematic.encodesAlong distinctShown near)⟩
  obtain ⟨path, fields, outs, leads, leadsOut, present, rfl, taken⟩ := takes.loses distinctShown
  rw [← Fields.keys_swapErase_sublist_iff (Json.distinct_obj_iff.mp (distinctShown.follow? leads)).1, ← taken]
  rcases keeps path outs leadsOut with ⟨inputs, leadsInput, within⟩ | ⟨rfl, _⟩
  · -- The object has an `attrs`, which the input has too or which was put behind its keys.
    have same : Fields.keys fields = attrsLast (Fields.keys inputs) := by
      rcases lists path fields leads with ⟨inputs', leadsInput', listed⟩ | ⟨rfl, _⟩
      · cases leadsInput.symm.trans leadsInput'
        rcases listed with same | same
        · rw [same, attrsLast, if_pos (same ▸ present)]
        · exact same
      · exact absurd present List.not_mem_nil
    rw [same]
    exact within
  · exact List.nil_sublist _

end Order

end Shape

/-- What a registry of schemas decodes lists the keys of the input in their order, with an `attrs` that was not
there behind them. It is encoded in the order of the input exactly where at most one key stands behind each `attrs`
that is taken out. -/
theorem key_order_kept_iff {r : Registry ω} {events : List (Event ω)} (reached : r.Reached events)
    (schematic : ∀ event ∈ events, event.Schematic) {target : Target} {input : Json} (distinct : input.Distinct)
    {d : Decoded ω} (accepted : (Decoder.mk r).decode target input = .ok (.ok d)) :
    Json.Along ListsKeys input d.toJson ∧ ∃ shape encoded, r.resolveTarget target = .ok shape ∧
      (Decoder.mk r).encode target d = .ok encoded ∧ (Json.Along KeepsOrder input encoded ↔
        ∀ keys, shape.TakesFrom d keys → Fields.NearEnd attrsKey keys) := by
  obtain ⟨shape, resolved, validated⟩ := Decoder.decode_eq_ok_iff.mp accepted
  have known : shape.Schematic := target.schematic_of_elaborate (reached.schematic schematic) shape resolved
  have encoded : (Decoder.mk r).encode target d = .ok (shape.encode d) := by
    simp only [Decoder.encode, Decoder.resolve, resolved]
    rfl
  exact ⟨known.decodesAlong distinct validated, shape, _, resolved, encoded, known.keepsOrder_iff distinct validated⟩

section Entry

def entrySchema : Schema := ⟨"Entry", [⟨"a", .scalar .number, false⟩, ⟨attrsKey, .scalar .string, false⟩]⟩

def entryEvents : List (Event Empty) := [.registered (.schema entrySchema)]

def entryRegistry : Registry Empty := (Registry.empty.register (.schema entrySchema)).1

/-- An entry with one key behind its `attrs`, and one without it. -/
def entriesInput : Json := .arr [.obj [("b", .null), (attrsKey, .null), ("a", .num (.int 1))], .obj [("a", .num (.int 2))]]

def entriesDecoded : Decoded Empty :=
  .arr [.obj [("b", .null), (attrsKey, .obj []), ("a", .num (.int 1))], .obj [("a", .num (.int 2)), (attrsKey, .obj [])]]

theorem entryRegistry_reached : entryRegistry.Reached entryEvents := .register .empty rfl

theorem entryEvents_schematic : ∀ event ∈ entryEvents, event.Schematic :=
  List.forall_mem_singleton.mpr trivial

theorem entriesInput_distinct : entriesInput.Distinct :=
  ⟨⟨by decide, trivial, trivial, trivial, trivial⟩, ⟨by decide, trivial, trivial⟩, trivial⟩

theorem key_order_kept_iff_entries : Json.Along ListsKeys entriesInput entriesDecoded.toJson ∧
    ∃ shape encoded, entryRegistry.resolveTarget (.arrayOf (.named "Entry")) = .ok shape ∧
      (Decoder.mk entryRegistry).encode (.arrayOf (.named "Entry")) entriesDecoded = .ok encoded ∧
      (Json.Along KeepsOrder entriesInput encoded ↔
        ∀ keys, shape.TakesFrom entriesDecoded keys → Fields.NearEnd attrsKey keys) :=
  key_order_kept_iff entryRegistry_reached entryEvents_schematic entriesInput_distinct rfl

/-- An entry with two keys behind its `attrs`. -/
def entryInput : Json := .obj [(attrsKey, .num (.int 1)), ("a", .num (.int 1)), ("b", .num (.int 2))]

def entryEncoded : Json := .obj [("b", .num (.int 2)), ("a", .num (.int 1))]

theorem entryInput_distinct : entryInput.Distinct := ⟨by decide, trivial, trivial, trivial, trivial⟩

/-- The last key comes to stand where the `attrs` was taken out. -/
theorem key_order_lost_entry : entryRegistry.Reached entryEvents ∧ (∀ event ∈ entryEvents, event.Schematic) ∧
    entryInput.Distinct ∧ ∃ d, (Decoder.mk entryRegistry).decode (.named "Entry") entryInput = .ok (.ok d) ∧
      (Decoder.mk entryRegistry).encode (.named "Entry") d = .ok entryEncoded ∧
      ¬Json.Along KeepsOrder entryInput entryEncoded := by
  refine ⟨entryRegistry_reached, entryEvents_schematic, entryInput_distinct, _, rfl, rfl, fun keeps => ?_⟩
  rcases keeps [] _ rfl with ⟨inputs, leads, within⟩ | ⟨_, last⟩
  · cases leads
    revert within
    unfold KeepsOrder
    decide
  · cases last

end Entry

end Conform
