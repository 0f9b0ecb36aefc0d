import Conform.Proofs.AttrsType
import Conform.Proofs.Record
import Conform.Wire.Reading

namespace Conform

/-- The forms of types that documents know, the one that is tried first in the first place. What stands
in type position is a `τ`. -/
inductive TypeForm (τ : Type) where
  | reference (name : String)
  | array (element : τ)
  | parameterized (tag : String) (argument : τ)
  | generic (tag : String) (argument : τ)
  | union (members : List τ)
  | literal (props : List (Property τ))

namespace TypeForm

variable {τ σ : Type}

def rank : TypeForm τ → Nat
  | .reference _ => 0
  | .array _ => 1
  | .parameterized _ _ => 2
  | .generic _ _ => 3
  | .union _ => 4
  | .literal _ => 5

def map (f : τ → σ) : TypeForm τ → TypeForm σ
  | .reference name => .reference name
  | .array element => .array (f element)
  | .parameterized tag argument => .parameterized tag (f argument)
  | .generic tag argument => .generic tag (f argument)
  | .union members => .union (members.map f)
  | .literal props => .literal (props.map (.map f))

def wire : TypeForm WireType → WireType
  | .reference name => .reference name
  | .array element => .array element
  | .parameterized tag argument => .parameterized tag argument
  | .generic tag argument => .generic tag argument
  | .union members => .union members
  | .literal props => .literal props

end TypeForm

/-- A value that is written as a property: an object of its fields, or a list of them in their order. -/
inductive IsProperty : Json → Property Json → Prop
  | object {fields : Fields Json} {name : String} {type : Json} {optional : Bool} :
      Fields.get? "name" fields = some (.str name) → Fields.get? "type" fields = some type →
      (Fields.get? "optional" fields = some (.bool optional) ∨
        Fields.get? "optional" fields = none ∧ optional = false) →
      IsProperty (.obj fields) ⟨name, type, optional⟩
  | pair {name : String} {type : Json} : IsProperty (.arr [.str name, type]) ⟨name, type, false⟩
  | triple {name : String} {type : Json} {optional : Bool} :
      IsProperty (.arr [.str name, type, .bool optional]) ⟨name, type, optional⟩

/-- The forms that an object has: it may have several, and keys besides. -/
inductive HasForm (fields : Fields Json) : TypeForm Json → Prop
  | reference {name : String} : Fields.get? "referenceName" fields = some (.str name) →
      HasForm fields (.reference name)
  | array {element : Json} : Fields.get? "arrayElementType" fields = some element → HasForm fields (.array element)
  | parameterized {tag : String} {argument : Json} : Fields.get? "selfType" fields = some (.str tag) →
      Fields.get? "typeArgumentType" fields = some argument → HasForm fields (.parameterized tag argument)
  | generic {tag : String} {argument : Json} : Fields.get? "genericParameterName" fields = some (.str tag) →
      Fields.get? "genericParameterType" fields = some argument → HasForm fields (.generic tag argument)
  | union {members : List Json} : Fields.get? "unionMembers" fields = some (.arr members) →
      HasForm fields (.union members)
  | literal {key other : String} {items : List Json} {props : List (Property Json)} :
      (key = "props" ∧ other = "properties" ∨ key = "properties" ∧ other = "props") →
      Fields.get? key fields = some (.arr items) → Fields.get? other fields = none →
      List.Forall₂ IsProperty items props → HasForm fields (.literal props)

/-- The form that an object is taken for. -/
structure FirstForm (fields : Fields Json) (form : TypeForm Json) : Prop where
  has : HasForm fields form
  least : ∀ other, HasForm fields other → form.rank ≤ other.rank

section Unique

/-- A value is one property at most. -/
theorem IsProperty.unique {value : Json} {p q : Property Json} (first : IsProperty value p)
    (second : IsProperty value q) : p = q := by
  cases first with
  | object name type optional => cases second with
    | object name' type' optional' =>
      cases name.symm.trans name'
      cases type.symm.trans type'
      rcases optional with given | ⟨absent, rfl⟩ <;> rcases optional' with given' | ⟨absent', rfl⟩
      · cases given.symm.trans given'
        rfl
      · cases given.symm.trans absent'
      · cases absent.symm.trans given'
      · rfl
  | pair => cases second; rfl
  | triple => cases second; rfl

theorem properties_unique {items : List Json} {props others : List (Property Json)}
    (first : List.Forall₂ IsProperty items props) (second : List.Forall₂ IsProperty items others) : props = others := by
  induction first generalizing others with
  | nil => cases second; rfl
  | cons here _ ih => cases second with
    | cons here' later => rw [here.unique here', ih later]

/-- An object has one form of a rank at most. -/
theorem HasForm.unique {fields : Fields Json} {form other : TypeForm Json} (first : HasForm fields form)
    (second : HasForm fields other) (same : form.rank = other.rank) : form = other := by
  cases first with
  | reference named => cases second with
    | reference named' => cases named.symm.trans named'; rfl
    | _ => cases same
  | array element => cases second with
    | array element' => cases element.symm.trans element'; rfl
    | _ => cases same
  | parameterized tag argument => cases second with
    | parameterized tag' argument' =>
      cases tag.symm.trans tag'
      cases argument.symm.trans argument'
      rfl
    | _ => cases same
  | generic tag argument => cases second with
    | generic tag' argument' =>
      cases tag.symm.trans tag'
      cases argument.symm.trans argument'
      rfl
    | _ => cases same
  | union members => cases second with
    | union members' => cases members.symm.trans members'; rfl
    | _ => cases same
  | literal keys items absent props => cases second with
    | literal keys' items' absent' props' =>
      rcases keys with ⟨rfl, rfl⟩ | ⟨rfl, rfl⟩ <;> rcases keys' with ⟨rfl, rfl⟩ | ⟨rfl, rfl⟩
      · cases items.symm.trans items'
        rw [properties_unique props props']
      · cases items.symm.trans absent'
      · cases items.symm.trans absent'
      · cases items.symm.trans items'
        rw [properties_unique props props']
    | _ => cases same

/-- An object has one first form at most. -/
theorem FirstForm.unique {fields : Fields Json} {form other : TypeForm Json} (first : FirstForm fields form)
    (second : FirstForm fields other) : form = other :=
  first.has.unique second.has (Nat.le_antisymm (first.least _ second.has) (second.least _ first.has))

end Unique

namespace Wire

theorem partsOfItems_eq_map (items : List Json) : partsOfItems items = items.map part := by
  induction items with
  | nil => rfl
  | cons item rest ih => rw [partsOfItems, ih, List.map_cons]

theorem partsOfFields_eq_mapWithKey (fields : Fields Json) :
    partsOfFields fields = Fields.mapWithKey (fun _ => part) fields := by
  induction fields with
  | nil => rfl
  | cons entry rest ih =>
    obtain ⟨key, value⟩ := entry
    rw [partsOfFields, ih, Fields.mapWithKey_cons]

theorem get?_partsOfFields (key : String) (fields : Fields Json) :
    Fields.get? key (partsOfFields fields) = (Fields.get? key fields).map part := by
  rw [partsOfFields_eq_mapWithKey, Fields.get?_mapWithKey]

theorem value_part (value : Json) : (part value).value = value := by
  cases value <;> rfl

theorem fieldOf?_propertyForm (key : String) (i : PropertyField) :
    propertyForm.fieldOf? key = some i ↔ key = propertyForm.key i := by
  by_cases name : key = "name"
  · subst name
    cases i <;> decide
  · by_cases type : key = "type"
    · subst type
      cases i <;> decide
    · by_cases optional : key = "optional"
      · subst optional
        cases i <;> decide
      · cases i <;> simp [RecordForm.fieldOf?, propertyForm, name, type, optional]

/-- Nothing is missing when a name and a type are given. -/
theorem missing_eq_none_iff {given : propertyForm.Given} :
    (propertyForm.fields.find? fun i => propertyForm.required i && (given i).isNone) = none ↔
      given .name ≠ none ∧ given .type ≠ none := by
  have present (i : PropertyField) : (given i).isNone = false ↔ given i ≠ none := by
    rw [← Bool.not_eq_true, Option.isNone_iff_eq_none]
  refine Iff.trans ?_ (and_congr (present .name) (present .type))
  simp [propertyForm]

theorem property_eq_ok_iff {given : propertyForm.Given} {p : Property WireType} :
    property given = .ok p ↔ given .name = some p.name ∧ given .type = some p.type ∧
      (given .optional).getD false = p.optional := by
  rw [property]
  cases given .name with
  | none => simp [Reading.fail]
  | some _ => cases given .type with
    | none => simp [Reading.fail]
    | some _ =>
      constructor
      · rintro ⟨⟩
        exact ⟨rfl, rfl, rfl⟩
      · rintro ⟨⟨⟩, ⟨⟩, same⟩
        rw [same]

/-- The fields of a property are read each under its own key. -/
theorem readKeys_propertyForm {fields : Fields Json} (nodup : (Fields.keys fields).Nodup)
    {given : propertyForm.Given} :
    propertyForm.readKeys readPropertyField (partsOfFields fields) propertyForm.nothingGiven = .ok given ↔
      ∀ i, RecordForm.ReadAt (fun value => readPropertyField i (part value)) none (given i)
        (Fields.get? (propertyForm.key i) fields) := by
  have keys : (Fields.keys (partsOfFields fields)).Nodup := by
    rw [partsOfFields_eq_mapWithKey]
    exact Fields.nodup_keys_mapWithKey nodup _
  rw [RecordForm.readKeys_eq_ok_iff fieldOf?_propertyForm keys]
  refine forall_congr' fun i => ?_
  rw [get?_partsOfFields]
  cases Fields.get? (propertyForm.key i) fields <;> exact Iff.rfl

section Keys

variable {fields : Fields Json}

theorem readAt_name_iff {source? : Option Json} {name : Option String} :
    RecordForm.ReadAt (fun value => readPropertyField .name (part value)) none name source? ↔
      source? = name.map .str := by
  have written (value : Json) (s : String) :
      Reading.string (part value).value = .ok s ↔ value = .str s := by
    rw [value_part, Reading.string_eq_ok_iff]
  exact RecordForm.readAt_iff_of_written written

theorem readAt_type_iff {source? : Option Json} {type : Option WireType} :
    RecordForm.ReadAt (fun value => readPropertyField .type (part value)) none type source? ↔
      type = source?.map .ofJson := by
  cases source? with
  | none => exact Iff.rfl
  | some value => exact ⟨fun ⟨_, _, read, given⟩ => given.trans (congrArg some (Except.ok.inj read).symm),
      fun given => ⟨rfl, _, rfl, given⟩⟩

theorem readAt_optional_iff {source? : Option Json} {flag : Option Bool} :
    RecordForm.ReadAt (fun value => readPropertyField .optional (part value)) none flag source? ↔
      source? = flag.map .bool := by
  have written (value : Json) (b : Bool) :
      Reading.boolean (part value).value = .ok b ↔ value = .bool b := by
    rw [value_part, Reading.boolean_eq_ok_iff]
  exact RecordForm.readAt_iff_of_written written

/-- What is given of a property that is written as an object. -/
theorem ofFields_propertyForm (nodup : (Fields.keys fields).Nodup) {given : propertyForm.Given} :
    propertyForm.ofFields readPropertyField (partsOfFields fields) = .ok given ↔
      (Fields.get? "name" fields = (given .name).map .str ∧ given .type = (Fields.get? "type" fields).map .ofJson ∧
        Fields.get? "optional" fields = (given .optional).map .bool) ∧
      given .name ≠ none ∧ given .type ≠ none := by
  rw [RecordForm.ofFields_eq_ok_iff, readKeys_propertyForm nodup, missing_eq_none_iff]
  refine and_congr_left fun _ => ⟨fun each => ?_, fun ⟨name, type, optional⟩ i => ?_⟩
  · exact ⟨readAt_name_iff.mp (each .name), readAt_type_iff.mp (each .type), readAt_optional_iff.mp (each .optional)⟩
  · cases i with
    | name => exact readAt_name_iff.mpr name
    | type => exact readAt_type_iff.mpr type
    | optional => exact readAt_optional_iff.mpr optional

/-- What is read from an object is a property that is written in it. -/
theorem isProperty_of_ofFields (nodup : (Fields.keys fields).Nodup) {p : Property WireType}
    (read : propertyForm.ofFields readPropertyField (partsOfFields fields) >>= property = .ok p) :
    ∃ q, IsProperty (.obj fields) q ∧ q.map .ofJson = p := by
  obtain ⟨given, read, built⟩ := except_bind_eq_ok_iff.mp read
  obtain ⟨named, typed, marked⟩ := property_eq_ok_iff.mp built
  obtain ⟨⟨atName, atType, atOptional⟩, _⟩ := (ofFields_propertyForm nodup).mp read
  rw [named] at atName
  obtain ⟨type, atType, meant⟩ := Option.map_eq_some_iff.mp (atType.symm.trans typed)
  refine ⟨⟨p.name, type, p.optional⟩, .object atName atType ?_, by rw [Property.map, meant]⟩
  rw [atOptional, ← marked]
  cases given .optional with
  | none => exact Or.inr ⟨rfl, rfl⟩
  | some flag => exact Or.inl rfl

/-- The fields of a property that is written with a type, and with or without a flag. -/
def givenFields (name : String) (type : WireType) (flag : Option Bool) : propertyForm.Given
  | .name => some name
  | .type => some type
  | .optional => flag

theorem ofFields_of_isProperty (nodup : (Fields.keys fields).Nodup) {q : Property Json}
    (written : IsProperty (.obj fields) q) :
    propertyForm.ofFields readPropertyField (partsOfFields fields) >>= property = .ok (q.map .ofJson) := by
  cases written with
  | @object _ name type optional atName atType atOptional =>
    obtain ⟨flag, atFlag, marked⟩ : ∃ flag : Option Bool,
        Fields.get? "optional" fields = flag.map .bool ∧ flag.getD false = optional := by
      rcases atOptional with present | ⟨absent, rfl⟩
      · exact ⟨some optional, present, rfl⟩
      · exact ⟨none, absent, rfl⟩
    have meant : some (WireType.ofJson type) = (Fields.get? "type" fields).map .ofJson := by
      rw [atType, Option.map_some]
    have whole := (@ofFields_propertyForm _ nodup (givenFields name (.ofJson type) flag)).mpr
      ⟨⟨atName, meant, atFlag⟩, Option.some_ne_none _, Option.some_ne_none _⟩
    exact except_bind_eq_ok_iff.mpr ⟨_, whole, property_eq_ok_iff.mpr ⟨rfl, rfl, marked⟩⟩

end Keys

theorem isProperty_of_ofItems {items : List Json} {p : Property WireType}
    (read : propertyForm.ofItems readPropertyField (partsOfItems items) >>= property = .ok p) :
    ∃ q, IsProperty (.arr items) q ∧ q.map .ofJson = p := by
  obtain ⟨given, read, built⟩ := except_bind_eq_ok_iff.mp read
  rw [RecordForm.ofItems, partsOfItems_eq_map] at read
  match items with
  | [] => cases read
  | name :: rest =>
    obtain ⟨nameRead, isString, read⟩ := RecordForm.readPlaces_cons.mp read
    have string := Reading.string_eq_ok_iff.mp isString
    rw [value_part] at string
    subst string
    match rest with
    | [] => cases read
    | type :: rest =>
      obtain ⟨typeRead, isType, read⟩ := RecordForm.readPlaces_cons.mp read
      cases isType
      match rest with
      | [] =>
        cases read
        cases built
        exact ⟨_, .pair, rfl⟩
      | flag :: rest =>
        obtain ⟨flagRead, isFlag, read⟩ := RecordForm.readPlaces_cons.mp read
        have boolean := Reading.boolean_eq_ok_iff.mp isFlag
        rw [value_part] at boolean
        subst boolean
        match rest with
        | [] =>
          cases read
          cases built
          exact ⟨_, .triple, rfl⟩
        | _ :: _ => cases read

theorem ofItems_of_isProperty {items : List Json} {q : Property Json} (written : IsProperty (.arr items) q) :
    propertyForm.ofItems readPropertyField (partsOfItems items) >>= property = .ok (q.map .ofJson) := by
  cases written <;> rfl

/-- A value is read as a property exactly when it is written as one. -/
theorem property_part_eq_ok_iff {value : Json} (distinct : value.Distinct) {p : Property WireType} :
    (part value).property = .ok p ↔ ∃ q, IsProperty value q ∧ q.map .ofJson = p := by
  cases value with
  | arr items =>
    rw [part]
    refine ⟨isProperty_of_ofItems, ?_⟩
    rintro ⟨q, written, rfl⟩
    exact ofItems_of_isProperty written
  | obj fields =>
    rw [part]
    have nodup := (Json.distinct_obj_iff.mp distinct).1
    refine ⟨isProperty_of_ofFields nodup, ?_⟩
    rintro ⟨q, written, rfl⟩
    exact ofFields_of_isProperty nodup written
  | _ => exact iff_of_false (fun refused => nomatch refused) fun ⟨_, written, _⟩ => nomatch written

theorem forall₂_exists_map {α β γ : Type} {R : α → β → Prop} {f : β → γ} {items : List α} {images : List γ} :
    List.Forall₂ (fun item image => ∃ part, R item part ∧ f part = image) items images ↔
      ∃ parts, List.Forall₂ R items parts ∧ parts.map f = images := by
  constructor
  · intro each
    induction each with
    | nil => exact ⟨[], .nil, rfl⟩
    | cons first _ ih =>
      obtain ⟨part, related, rfl⟩ := first
      obtain ⟨parts, later, rfl⟩ := ih
      exact ⟨part :: parts, .cons related later, rfl⟩
  · rintro ⟨parts, each, rfl⟩
    exact List.forall₂_map_right_iff.mpr (each.imp fun _ part related => ⟨part, related, rfl⟩)

/-- A value is read as properties exactly when it is a list of them. -/
theorem props_part_eq_ok_iff {value : Json} (distinct : value.Distinct) {declared : List (Property WireType)} :
    (part value).props = .ok declared ↔ ∃ items props, value = .arr items ∧ List.Forall₂ IsProperty items props ∧
      props.map (.map .ofJson) = declared := by
  cases value with
  | arr items =>
    have each (p : Property WireType) (item : Json) (member : item ∈ items) :
        (part item).property = .ok p ↔ ∃ q, IsProperty item q ∧ q.map .ofJson = p :=
      property_part_eq_ok_iff (Json.distinct_arr_iff.mp distinct item member)
    have read : (part (.arr items)).props = .ok declared ↔
        List.Forall₂ (fun item p => ∃ q, IsProperty item q ∧ q.map .ofJson = p) items declared := by
      rw [part, partsOfItems_eq_map, Reading.each_eq_ok_iff, List.forall₂_map_left_iff]
      exact ⟨fun all => Shape.forall₂_imp_of_mem all fun item member p _ => (each p item member).mp,
        fun all => Shape.forall₂_imp_of_mem all fun item member p _ => (each p item member).mpr⟩
    rw [read, forall₂_exists_map]
    exact ⟨fun ⟨props, written, same⟩ => ⟨items, props, rfl, written, same⟩,
      fun ⟨_, props, same, written, meant⟩ => ⟨props, Json.arr.inj same ▸ written, meant⟩⟩
  | _ => exact iff_of_false (fun refused => nomatch refused) fun ⟨_, _, written, _⟩ => nomatch written

section Forms

variable {fields : Fields Json}

/-- What the known forms ask of the parts of an object, in the order in which they are tried. -/
def candidates (parts : Fields Part) : List (Option WireType) :=
  [(stringAt parts "referenceName").map .reference, (typeAt parts "arrayElementType").map .array,
    (stringAt parts "selfType").bind fun tag => (typeAt parts "typeArgumentType").map (.parameterized tag),
    (stringAt parts "genericParameterName").bind fun tag => (typeAt parts "genericParameterType").map (.generic tag),
    (typesAt parts "unionMembers").map .union, (propsIn parts).map .literal]

theorem typeOf_eq_candidates (whole : Json) (parts : Fields Part) :
    typeOf whole parts = ((candidates parts).findSome? id).getD (.other whole) := rfl

theorem stringAt_eq_some_iff {key s : String} :
    stringAt (partsOfFields fields) key = some s ↔ Fields.get? key fields = some (.str s) := by
  rw [stringAt, get?_partsOfFields]
  cases Fields.get? key fields with
  | none => simp
  | some value => cases value <;> simp [value_part, Reading.string, Reading.fail, Except.toOption]

theorem typeAt_eq_some_iff {key : String} {type : WireType} :
    typeAt (partsOfFields fields) key = some type ↔
      ∃ value, Fields.get? key fields = some value ∧ .ofJson value = type := by
  rw [typeAt, get?_partsOfFields, Option.map_map, Option.map_eq_some_iff]
  rfl

theorem typesAt_eq_some_iff {key : String} {types : List WireType} : typesAt (partsOfFields fields) key = some types ↔
    ∃ items, Fields.get? key fields = some (.arr items) ∧ items.map .ofJson = types := by
  rw [typesAt, get?_partsOfFields]
  cases Fields.get? key fields with
  | none => simp
  | some value => cases value with
    | arr items =>
      have meant : (part (.arr items)).items = some (items.map WireType.ofJson) := by
        rw [part, partsOfItems_eq_map, List.map_map]
        rfl
      simp [meant]
    | _ => simp [part, leaf]

theorem toOption_eq_some_iff {α : Type} {r : Reading α} {value : α} : r.toOption = some value ↔ r = .ok value := by
  cases r <;> simp [Except.toOption]

/-- The properties of an object are under one of two keys. -/
theorem propsIn_eq_some_iff {parts : Fields Part} {declared : List (Property WireType)} :
    propsIn parts = some declared ↔ ∃ key other part,
      (key = "props" ∧ other = "properties" ∨ key = "properties" ∧ other = "props") ∧
        Fields.get? key parts = some part ∧ Fields.get? other parts = none ∧ part.props = .ok declared := by
  rw [propsIn]
  constructor
  · intro found
    split at found
    · rename_i part atProps atProperties
      exact ⟨"props", "properties", part, Or.inl ⟨rfl, rfl⟩, atProps, atProperties, toOption_eq_some_iff.mp found⟩
    · rename_i part atProps atProperties
      exact ⟨"properties", "props", part, Or.inr ⟨rfl, rfl⟩, atProperties, atProps, toOption_eq_some_iff.mp found⟩
    · cases found
  · rintro ⟨key, other, part, ⟨rfl, rfl⟩ | ⟨rfl, rfl⟩, present, absent, read⟩
    · rw [present, absent]
      exact toOption_eq_some_iff.mpr read
    · rw [present, absent]
      exact toOption_eq_some_iff.mpr read

/-- An object holds properties exactly when it has the form of a literal. -/
theorem propsIn_partsOfFields (distinct : (Json.obj fields).Distinct) {declared : List (Property WireType)} :
    propsIn (partsOfFields fields) = some declared ↔
      ∃ props, HasForm fields (.literal props) ∧ props.map (.map .ofJson) = declared := by
  simp only [propsIn_eq_some_iff, get?_partsOfFields, Option.map_eq_some_iff, Option.map_eq_none_iff]
  constructor
  · rintro ⟨key, other, _, keys, ⟨value, present, rfl⟩, absent, read⟩
    obtain ⟨items, props, rfl, written, meant⟩ := (props_part_eq_ok_iff (distinct.of_get? present)).mp read
    exact ⟨props, .literal keys present absent written, meant⟩
  · rintro ⟨props, has, meant⟩
    cases has with
    | @literal key other items _ keys present absent written =>
      have read := (props_part_eq_ok_iff (distinct.of_get? present)).mpr ⟨items, props, rfl, written, meant⟩
      exact ⟨key, other, _, keys, ⟨_, present, rfl⟩, absent, read⟩

/-- The candidate at a place is the form of that rank, where an object has it. -/
theorem candidates_eq_some_iff (distinct : (Json.obj fields).Distinct) {place : Nat} {type : WireType} :
    (candidates (partsOfFields fields))[place]? = some (some type) ↔
      ∃ form, HasForm fields form ∧ form.rank = place ∧ (form.map .ofJson).wire = type := by
  constructor
  · intro found
    -- One case for each rank, in the order in which the forms are tried.
    match place with
    | 0 =>
      obtain ⟨name, named, rfl⟩ := Option.map_eq_some_iff.mp (Option.some.inj found)
      exact ⟨_, .reference (stringAt_eq_some_iff.mp named), rfl, rfl⟩
    | 1 =>
      obtain ⟨_, typed, rfl⟩ := Option.map_eq_some_iff.mp (Option.some.inj found)
      obtain ⟨element, present, rfl⟩ := typeAt_eq_some_iff.mp typed
      exact ⟨_, .array present, rfl, rfl⟩
    | 2 =>
      obtain ⟨tag, named, found⟩ := Option.bind_eq_some_iff.mp (Option.some.inj found)
      obtain ⟨_, typed, rfl⟩ := Option.map_eq_some_iff.mp found
      obtain ⟨argument, present, rfl⟩ := typeAt_eq_some_iff.mp typed
      exact ⟨_, .parameterized (stringAt_eq_some_iff.mp named) present, rfl, rfl⟩
    | 3 =>
      obtain ⟨tag, named, found⟩ := Option.bind_eq_some_iff.mp (Option.some.inj found)
      obtain ⟨_, typed, rfl⟩ := Option.map_eq_some_iff.mp found
      obtain ⟨argument, present, rfl⟩ := typeAt_eq_some_iff.mp typed
      exact ⟨_, .generic (stringAt_eq_some_iff.mp named) present, rfl, rfl⟩
    | 4 =>
      obtain ⟨_, typed, rfl⟩ := Option.map_eq_some_iff.mp (Option.some.inj found)
      obtain ⟨members, present, rfl⟩ := typesAt_eq_some_iff.mp typed
      exact ⟨_, .union present, rfl, rfl⟩
    | 5 =>
      obtain ⟨_, declared, rfl⟩ := Option.map_eq_some_iff.mp (Option.some.inj found)
      obtain ⟨props, has, rfl⟩ := (propsIn_partsOfFields distinct).mp declared
      exact ⟨_, has, rfl, rfl⟩
    | _ + 6 => cases found
  · rintro ⟨form, has, rfl, rfl⟩
    cases has with
    | reference named => exact congrArg some (Option.map_eq_some_iff.mpr ⟨_, stringAt_eq_some_iff.mpr named, rfl⟩)
    | array present =>
      exact congrArg some (Option.map_eq_some_iff.mpr ⟨_, typeAt_eq_some_iff.mpr ⟨_, present, rfl⟩, rfl⟩)
    | parameterized named present | generic named present =>
      have typed := typeAt_eq_some_iff.mpr ⟨_, present, rfl⟩
      exact congrArg some (Option.bind_eq_some_iff.mpr
        ⟨_, stringAt_eq_some_iff.mpr named, Option.map_eq_some_iff.mpr ⟨_, typed, rfl⟩⟩)
    | union present =>
      exact congrArg some (Option.map_eq_some_iff.mpr ⟨_, typesAt_eq_some_iff.mpr ⟨_, present, rfl⟩, rfl⟩)
    | literal keys present absent written =>
      have declared := (propsIn_partsOfFields distinct).mpr ⟨_, .literal keys present absent written, rfl⟩
      exact congrArg some (Option.map_eq_some_iff.mpr ⟨_, declared, rfl⟩)

/-- What stands behind empty places only is found. -/
theorem findSome?_id_of_first {α : Type} {tried : List (Option α)} {place : Nat} {found : α}
    (here : tried[place]? = some (some found)) (earlier : ∀ i < place, ∀ other, tried[i]? ≠ some (some other)) :
    tried.findSome? id = some found := by
  induction tried generalizing place with
  | nil => cases here
  | cons candidate rest ih =>
    cases place with
    | zero =>
      obtain rfl := Option.some.inj here
      rfl
    | succ place =>
      have empty : candidate = none :=
        Option.eq_none_iff_forall_ne_some.mpr fun other same => earlier 0 place.succ_pos other (congrArg some same)
      subst empty
      exact ih here fun i before => earlier (i + 1) (Nat.succ_lt_succ before)

end Forms

end Wire

variable {fields : Fields Json}

theorem WireType.ofJson_obj (fields : Fields Json) :
    WireType.ofJson (.obj fields) = Wire.typeOf (.obj fields) (Wire.partsOfFields fields) := by
  rw [ofJson, Wire.part]

/-- An object stands for the type of its first form. -/
theorem FirstForm.ofJson (distinct : (Json.obj fields).Distinct) {form : TypeForm Json}
    (first : FirstForm fields form) :
    WireType.ofJson (.obj fields) = (form.map .ofJson).wire := by
  have here := (Wire.candidates_eq_some_iff distinct).mpr ⟨form, first.has, rfl, rfl⟩
  rw [WireType.ofJson_obj, Wire.typeOf_eq_candidates, Wire.findSome?_id_of_first here]
  · rfl
  · intro place before type candidate
    obtain ⟨other, has, rank, _⟩ := (Wire.candidates_eq_some_iff distinct).mp candidate
    have least := first.least other has
    omega

theorem HasForm.exists_first {form : TypeForm Json} (has : HasForm fields form) : ∃ first, FirstForm fields first := by
  induction rank : form.rank using Nat.strong_induction_on generalizing form with
  | _ rank ih =>
    by_cases earlier : ∃ other, HasForm fields other ∧ other.rank < form.rank
    · obtain ⟨other, has', less⟩ := earlier
      exact ih other.rank (rank ▸ less) has' rfl
    · exact ⟨form, has, fun other has' => Nat.le_of_not_lt fun less => earlier ⟨other, has', less⟩⟩

/-- An object without a form is no type. -/
theorem WireType.ofJson_of_formless (distinct : (Json.obj fields).Distinct) (formless : ∀ form, ¬HasForm fields form) :
    WireType.ofJson (.obj fields) = .other (.obj fields) := by
  have none : (Wire.candidates (Wire.partsOfFields fields)).findSome? id = none := by
    refine List.findSome?_eq_none_iff.mpr fun candidate member => ?_
    obtain ⟨place, at_place⟩ := List.mem_iff_getElem?.mp member
    refine Option.eq_none_iff_forall_ne_some.mpr fun type found => ?_
    obtain ⟨form, has, _⟩ := (Wire.candidates_eq_some_iff distinct).mp (at_place.trans (congrArg some found))
    exact formless form has
  rw [ofJson_obj, Wire.typeOf_eq_candidates, none]
  rfl

end Conform
