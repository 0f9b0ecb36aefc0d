import Conform.Proofs.JsonEquality
import Conform.Proofs.Shape.Encode
import Conform.Proofs.Shape.Parts
import Conform.Proofs.Shape.Structural

namespace Conform.Shape

variable {ω : Type}

/-- Encoding what the shape decoded gives the input back. -/
def RoundTrips (s : Shape ω) : Prop :=
  ∀ input : Json, input.Distinct → ∀ here d, s.validate input here = .ok d → (s.encode d).same input = true

/-- What an accepted whole holds for a part: what the shape decoded, or the plain part where its
rejection named no mismatch. Beside optional keys it is plain too unless something was constructed. -/
def kept (beside : Bool) (s : Shape ω) (value : Json) (here : Position) : Decoded ω :=
  match s.validate value here with
  | .ok part => settle beside value part
  | .error _ => .ofJson value

/-- A part comes back from its whole where what the shape decoded is kept, and else where the shape
writes the plain part as it is. -/
def Restores (beside : Bool) (s : Shape ω) (value : Json) (here : Position) : Prop :=
  (∃ part, s.validate value here = .ok part ∧ (beside = true → part.holdsConstructed = true)) ∨
    (s.encode (.ofJson value)).same value = true

/-- What is kept of a part is encoded back to it exactly where the shape restores it. -/
theorem RoundTrips.encode_kept_iff {s : Shape ω} (trips : s.RoundTrips) (beside : Bool) {value : Json}
    (distinct : value.Distinct) (here : Position) :
    (s.encode (s.kept beside value here)).normal = value.normal ↔ s.Restores beside value here := by
  rw [kept, Restores, ← Json.same_iff]
  cases validated : s.validate value here with
  | error f => simp
  | ok part =>
    have back := trips value distinct here part validated
    cases plain : beside && !part.holdsConstructed with
    | true =>
      simp only [settle, plain, if_true]
      simp only [Bool.and_eq_true, Bool.not_eq_true'] at plain
      simp [plain]
    | false =>
      simp only [settle, plain, Bool.false_eq_true, if_false, back, true_iff]
      refine Or.inl ⟨part, rfl, fun isBeside => ?_⟩
      simpa [isBeside] using plain

theorem Keeps.roundTrips {s : Shape ω} (keeps : s.Keeps) : s.RoundTrips := by
  intro input _ here d accepted
  rw [keeps.of_ok accepted, keeps.encodes, Decoded.toJson_ofJson]
  exact Json.same_refl input

section Array

variable {element : Shape ω} {items : List Json} {here : Position} {d : Decoded ω}

/-- An accepted array holds what its items decode to: an item that was rejected without a word
leaves nothing behind. -/
theorem validate_array_accepted (accepted : (array element).validate (.arr items) here = .ok d) :
    d = .arr (items.zipIdx.filterMap fun entry => (element.validate entry.1 (here.index entry.2)).toOption) := by
  rw [validate, validateItems_eq_collect] at accepted
  rw [← Findings.build_of_finish accepted, List.filterMap_map]
  rfl

/-- An array comes back where every item was accepted. -/
theorem array_same_iff (trips : element.RoundTrips) (distinct : (Json.arr items).Distinct)
    (accepted : (array element).validate (.arr items) here = .ok d) :
    ((array element).encode d).same (.arr items) = true ↔
      ∀ item place, (item, place) ∈ items.zipIdx → ∃ part, element.validate item (here.index place) = .ok part := by
  rw [validate_array_accepted accepted, encode, Json.same_iff, Json.normal_arr_eq_iff]
  constructor
  · intro same item place member
    have lengths := congrArg List.length same
    rw [List.length_map, List.length_map, List.length_map, ← List.length_zipIdx (l := items)] at lengths
    have decoded := List.filterMap_length_eq_length.mp lengths (item, place) member
    cases validated : element.validate item (here.index place) with
    | ok part => exact ⟨part, rfl⟩
    | error f => simp [validated, Except.toOption] at decoded
  · intro each
    have parts : items.zipIdx.filterMap (fun entry => (element.validate entry.1 (here.index entry.2)).toOption) =
        items.zipIdx.map fun entry => element.kept false entry.1 (here.index entry.2) := by
      rw [← List.filterMap_eq_map]
      refine List.filterMap_congr fun entry member => ?_
      obtain ⟨part, validated⟩ := each entry.1 entry.2 member
      simp only [validated, Except.toOption, Function.comp, kept, settle, Bool.false_and, Bool.false_eq_true, if_false]
    have back : ∀ entry ∈ items.zipIdx,
        (element.encode (element.kept false entry.1 (here.index entry.2))).normal = entry.1.normal := by
      intro entry member
      have inItems := List.fst_mem_of_mem_zipIdx member
      obtain ⟨part, validated⟩ := each entry.1 entry.2 member
      refine (trips.encode_kept_iff false (Json.distinct_arr_iff.mp distinct _ inItems) _).mpr ?_
      exact Or.inl ⟨part, validated, Bool.false_ne_true.elim⟩
    rw [parts, List.map_map, List.map_map]
    conv_rhs => rw [← List.zipIdx_map_fst 0 items, List.map_map]
    exact List.map_congr_left back

/-- An array gives back what it was given when its element does and says why it rejects. -/
theorem array_roundTrips (inner : element.RoundTrips) (reporting : element.Reporting) : (array element).RoundTrips := by
  intro input distinct here d accepted
  cases input with
  | arr items =>
    refine (array_same_iff inner distinct accepted).mpr fun item place member => ?_
    rw [validate, validateItems_eq_collect] at accepted
    exact Findings.ok_of_finish (reports_items reporting here 0 items) accepted _
      (List.mem_map.mpr ⟨(item, place), member, rfl⟩)
  | _ => cases accepted

end Array

section Fields

/-- The shape of a declared key, and whether the key stands beside optional ones. -/
abbrev Declared (ω : Type) := String → Option (Bool × Shape ω)

def keptField (declared : Declared ω) (here : Position) (key : String) (value : Json) : Decoded ω :=
  match declared key with
  | some (beside, s) => s.kept beside value (here.field key)
  | none => .ofJson value

def encodeDeclared (declared : Declared ω) (key : String) (d : Decoded ω) : Json :=
  match declared key with
  | some (_, s) => s.encode d
  | none => d.toJson

/-- An object is decoded and encoded key by key, each declared key by its own shape and the others as
they are; it comes back where every declared part does. -/
structure Composes (s : Shape ω) (declared : Declared ω) (fields : Fields Json) (here : Position)
    (d : Decoded ω) : Prop where
  decodes : d = .obj (fields.mapWithKey (keptField declared here))
  encodes : ∃ shown : String → Decoded ω → Json,
    s.encode d = .obj ((fields.mapWithKey (keptField declared here)).mapWithKey shown) ∧
      ∀ key part, (shown key part).normal = (encodeDeclared declared key part).normal
  same_iff : (s.encode d).same (.obj fields) = true ↔ ∀ key value, Fields.get? key fields = some value →
    ∀ beside part, declared key = some (beside, part) → part.Restores beside value (here.field key)

/-- A shape that encodes each kept field by its own declaration composes: it gives its input back
exactly when every field is restored. -/
theorem Composes.of_fields {s : Shape ω} {declared : Declared ω} {fields : Fields Json} {here : Position}
    (trips : ∀ key beside part, declared key = some (beside, part) → part.RoundTrips)
    (distinct : (Json.obj fields).Distinct) {shown : String → Decoded ω → Json}
    (encoded : s.encode (.obj (fields.mapWithKey (keptField declared here))) =
      .obj ((fields.mapWithKey (keptField declared here)).mapWithKey shown))
    (each : ∀ key part, (shown key part).normal = (encodeDeclared declared key part).normal) :
    Composes s declared fields here (.obj (fields.mapWithKey (keptField declared here))) where
  decodes := rfl
  encodes := ⟨shown, encoded, each⟩
  same_iff := by
    have nodup := (Json.distinct_obj_iff.mp distinct).1
    have nodupShown := Fields.nodup_keys_mapWithKey (Fields.nodup_keys_mapWithKey nodup (keptField declared here)) shown
    -- Both objects have the keys of the input, so they are compared key by key.
    rw [encoded, Json.same_iff, Json.normal_obj_eq_iff nodupShown nodup]
    simp only [Fields.get?_mapWithKey]
    refine forall_congr' fun key => ?_
    cases present : Fields.get? key fields with
    | none => simp
    | some value =>
      simp only [Option.map_some, Option.some.injEq, each, forall_eq', keptField, encodeDeclared]
      cases known : declared key with
      | none => simp [Decoded.toJson_ofJson]
      | some entry =>
        obtain ⟨beside, part⟩ := entry
        rw [(trips key beside part known).encode_kept_iff beside (distinct.of_get? present)]
        simp

variable {name : String} {props : List (String × Shape ω)} {lenient : Bool} {input : Json} {here : Position}
  {d : Decoded ω}

def declaredBy (props : List (String × Shape ω)) : Declared ω := fun key => (Fields.get? key props).map (false, ·)

theorem decodedBy_eq_keptField (nodup : (Fields.keys props).Nodup) (key : String) (value : Json) :
    decodedBy here props key value = keptField (declaredBy props) here key value := by
  rw [decodedBy, taken, Fields.lastSome?_eq_get?_bind nodup, keptField, declaredBy]
  cases Fields.get? key props with
  | none => rfl
  | some s =>
    simp only [Option.map_some, Option.bind_some, kept]
    cases s.validate value (here.field key) <;> rfl

/-- An accepted object holds for each key what is kept for it. -/
theorem validate_object_kept (nodup : (Fields.keys props).Nodup) (distinct : input.Distinct)
    (accepted : (object name props lenient).validate input here = .ok d) :
    ∃ fields : Fields Json, input = .obj fields ∧
      d = .obj (fields.mapWithKey (keptField (declaredBy props) here)) := by
  cases input with
  | obj fields =>
    obtain ⟨_, rfl⟩ := (validate_object_obj_iff (Json.distinct_obj_iff.mp distinct).1).mp accepted
    refine ⟨fields, rfl, congrArg Decoded.obj (Fields.mapWithKey_congr fun entry _ => ?_)⟩
    exact decodedBy_eq_keptField nodup entry.1 entry.2
  | _ => cases accepted

theorem encodeField_eq_encodeDeclared (nodup : (Fields.keys props).Nodup) (key : String) (part : Decoded ω) :
    encodeField props key part = encodeDeclared (declaredBy props) key part := by
  rw [encodeField, encodeProp_eq_last?, Fields.last?_eq_get? nodup, encodeDeclared, declaredBy]
  cases Fields.get? key props <;> rfl

/-- An object is put together from its properties field by field, and gives its input back exactly
where every declared field is restored. -/
theorem object_composes (nodup : (Fields.keys props).Nodup) (each : ∀ prop ∈ props, prop.2.RoundTrips)
    (distinct : input.Distinct) (accepted : (object name props lenient).validate input here = .ok d) :
    ∃ fields, input = .obj fields ∧ Composes (object name props lenient) (declaredBy props) fields here d := by
  obtain ⟨fields, rfl, rfl⟩ := validate_object_kept nodup distinct accepted
  refine ⟨fields, rfl, .of_fields ?_ distinct (encode_object_obj name props lenient _) ?_⟩
  · intro key beside part declared
    obtain ⟨s, known, same⟩ := Option.map_eq_some_iff.mp declared
    cases same
    exact each (key, part) (Fields.mem_of_get? known)
  · exact fun key part => congrArg Json.normal (encodeField_eq_encodeDeclared nodup key part)

/-- An object gives back what it was given when its properties do and say why they reject. -/
theorem object_roundTrips (nodup : (Fields.keys props).Nodup) (each : ∀ prop ∈ props, prop.2.RoundTrips)
    (reporting : ∀ prop ∈ props, prop.2.Reporting) : (object name props lenient).RoundTrips := by
  intro input distinct here d accepted
  obtain ⟨fields, rfl, composes⟩ := object_composes nodup each distinct accepted
  obtain ⟨_, parts, same, _, decoded, _⟩ := validate_object_eq_ok nodup reporting accepted
  cases same
  refine composes.same_iff.mpr fun key value present beside s declared => Or.inl ?_
  obtain ⟨_, known, same⟩ := Option.map_eq_some_iff.mp declared
  cases same
  obtain ⟨part, _, validated⟩ := decoded (key, s) (Fields.mem_of_get? known) value present
  exact ⟨part, validated, Bool.false_ne_true.elim⟩

variable {required optional : List (String × Shape ω)} {strictName lenientName : String}

/-- The required keys stand beside the optional ones. -/
def declaredBeside (required optional : List (String × Shape ω)) : Declared ω :=
  fun key => ((Fields.get? key required).map (true, ·)).or ((Fields.get? key optional).map (false, ·))

theorem settle_kept (s : Shape ω) (value : Json) (here : Position) :
    settle true value (s.kept false value here) = s.kept true value here := by
  rw [kept, kept]
  cases s.validate value here with
  | ok part => rfl
  | error f => simp only [settle, ite_self]

/-- Of two copies of a field that of the optional side is kept where it declares the field, and that
of the required side where it holds an instance. -/
theorem keepConstructed_keptField (apart : ∀ key ∈ Fields.keys required, key ∉ Fields.keys optional) (here : Position)
    (key : String) (value : Json) :
    keepConstructed (keptField (declaredBy required) here key value) (keptField (declaredBy optional) here key value) =
      keptField (declaredBeside required optional) here key value := by
  simp only [keptField, declaredBy, declaredBeside]
  cases first : Fields.get? key required with
  | none => exact keepConstructed_ofJson_left _ _
  | some s =>
    have isRequired : key ∈ Fields.keys required := Fields.mem_keys_of_mem (Fields.mem_of_get? first)
    rw [Fields.get?_eq_none_iff.mpr (apart key isRequired)]
    exact (keepConstructed_ofJson_right _ _).trans (settle_kept s value _)

/-- The side that does not declare a key writes it as it is, so the key is encoded by the side that
does. -/
theorem encodeBeside_eq_encodeDeclared (nodupRequired : (Fields.keys required).Nodup)
    (nodupOptional : (Fields.keys optional).Nodup)
    (apart : ∀ key ∈ Fields.keys required, key ∉ Fields.keys optional) (key : String) (part : Decoded ω) :
    (encodeBeside required optional key part).normal =
      (encodeDeclared (declaredBeside required optional) key part).normal := by
  cases first : Fields.get? key required with
  | none =>
    rw [encodeBeside_of_not_required (Fields.get?_eq_none_iff.mp first), encodeField_eq_encodeDeclared nodupOptional]
    simp only [encodeDeclared, declaredBy, declaredBeside, first, Option.map_none, Option.none_or]
  | some s =>
    have isRequired : key ∈ Fields.keys required := Fields.mem_keys_of_mem (Fields.mem_of_get? first)
    rw [encodeBeside_of_not_optional (apart key isRequired), encodeField_eq_encodeDeclared nodupRequired]
    simp only [encodeDeclared, declaredBy, declaredBeside, first, Option.map_some, Option.some_or]

/-- A strict object met by a lenient one is put together field by field: beside the lenient side a
required field that holds no instance is kept as it was given, and has to be restored from that. -/
theorem intersection_composes (nodupRequired : (Fields.keys required).Nodup)
    (nodupOptional : (Fields.keys optional).Nodup)
    (apart : ∀ key ∈ Fields.keys required, key ∉ Fields.keys optional)
    (each : ∀ prop ∈ required ++ optional, prop.2.RoundTrips) (distinct : input.Distinct)
    (accepted : (intersection name (object strictName required false) (object lenientName optional true)).validate
      input here = .ok d) :
    ∃ fields, input = .obj fields ∧
      Composes (intersection name (object strictName required false) (object lenientName optional true))
        (declaredBeside required optional) fields here d := by
  obtain ⟨a, b, strictly, leniently, rfl⟩ := validate_intersection_eq_ok_iff.mp accepted
  obtain ⟨fields, rfl, rfl⟩ := validate_object_kept nodupRequired distinct strictly
  obtain ⟨_, same, rfl⟩ := validate_object_kept nodupOptional distinct leniently
  cases same
  have nodup := (Json.distinct_obj_iff.mp distinct).1
  rw [merge_mapWithKey nodup]
  simp only [keepConstructed_keptField apart]
  have nodupKept := Fields.nodup_keys_mapWithKey nodup (keptField (declaredBeside required optional) here)
  refine ⟨fields, rfl, .of_fields ?_ distinct (encode_intersection_obj nodupKept name _ _ _ _) ?_⟩
  · intro key beside part declared
    rcases Option.or_eq_some_iff.mp declared with isRequired | ⟨_, isOptional⟩
    · obtain ⟨s, known, same⟩ := Option.map_eq_some_iff.mp isRequired
      cases same
      exact each (key, part) (List.mem_append_left _ (Fields.mem_of_get? known))
    · obtain ⟨s, known, same⟩ := Option.map_eq_some_iff.mp isOptional
      cases same
      exact each (key, part) (List.mem_append_right _ (Fields.mem_of_get? known))
  · exact encodeBeside_eq_encodeDeclared nodupRequired nodupOptional apart

end Fields

/-- What is put together from parts that come back. An array comes back exactly where every item was
accepted. An object comes back exactly where every declared part is what its shape decoded, or is
written as it is; beside optional keys, a required part is plain unless something was constructed. -/
theorem roundTrips_of_parts {element : Shape ω} {required optional : List (String × Shape ω)}
    (nodupRequired : (Fields.keys required).Nodup) (nodupOptional : (Fields.keys optional).Nodup)
    (apart : ∀ key ∈ Fields.keys required, key ∉ Fields.keys optional) (inner : element.RoundTrips)
    (each : ∀ prop ∈ required ++ optional, prop.2.RoundTrips) {input : Json} (distinct : input.Distinct)
    (here : Position) (d : Decoded ω) :
    ((array element).validate input here = .ok d → ∃ items, input = .arr items ∧
      (((array element).encode d).same input = true ↔ ∀ item place, (item, place) ∈ items.zipIdx →
        ∃ part, element.validate item (here.index place) = .ok part)) ∧
    (∀ name lenient, (object name required lenient).validate input here = .ok d → ∃ fields, input = .obj fields ∧
      Composes (object name required lenient) (declaredBy required) fields here d) ∧
    ∀ name strictName lenientName,
      (intersection name (object strictName required false) (object lenientName optional true)).validate input here =
        .ok d → ∃ fields, input = .obj fields ∧
      Composes (intersection name (object strictName required false) (object lenientName optional true))
        (declaredBeside required optional) fields here d := by
  refine ⟨fun accepted => ?_, fun name lenient accepted => ?_, fun name strictName lenientName accepted => ?_⟩
  · cases input with
    | arr items => exact ⟨items, rfl, array_same_iff inner distinct accepted⟩
    | _ => cases accepted
  · exact object_composes nodupRequired (fun prop member => each prop (List.mem_append_left _ member)) distinct accepted
  · exact intersection_composes nodupRequired nodupOptional apart each distinct accepted

section Hashed

/-- Texts behind a hash sign, which is no part of what they decode to. -/
def hashed : Shape Json :=
  .custom "Hashed" validate encode fun d => d.string?.isSome
where
  validate (input : Json) (here : Position) : Validation Json :=
    match input with
    | .str text =>
      match text.toList with
      | '#' :: rest => .ok (.str (String.ofList rest))
      | _ => .error (.single here "Hashed" (some input))
    | _ => .error (.single here "Hashed" (some input))
  encode (d : Decoded Json) : Json :=
    match d with
    | .str text => .str ("#" ++ text)
    | d => d.toJson

theorem hashed_roundTrips : hashed.RoundTrips := by
  intro input _ here d accepted
  simp only [hashed, Shape.validate, hashed.validate] at accepted
  split at accepted
  · rename_i text _
    split at accepted
    · rename_i rest behind
      cases accepted
      have whole : "#" ++ String.ofList rest = text := by
        apply String.toList_injective
        simp [behind]
      rw [← whole]
      exact Json.same_refl _
    · cases accepted
  · cases accepted

def tagProps : List (String × Shape Json) := [("tag", hashed)]

def noteProps : List (String × Shape Json) := [("note", .string)]

def tagInput : Json := .obj [("tag", .str "#x")]

theorem tagProps_roundTrips : ∀ prop ∈ tagProps ++ noteProps, prop.2.RoundTrips := by
  intro prop member
  simp only [tagProps, noteProps, List.cons_append, List.nil_append, List.mem_cons, List.not_mem_nil,
    or_false] at member
  rcases member with rfl | rfl
  · exact hashed_roundTrips
  · exact (scalar_keeps .string).roundTrips

theorem tagInput_distinct : tagInput.Distinct := ⟨by decide, trivial, trivial⟩

def tagged : Shape Json := .intersection "Tagged" (.object "Tagged" tagProps false) (.object "Tagged" noteProps true)

theorem roundTrips_of_parts_tagged : ∃ fields, tagInput = .obj fields ∧
    Composes tagged (declaredBeside tagProps noteProps) fields (.top "Tagged") (.ofJson tagInput) :=
  (roundTrips_of_parts (by decide) (by decide) (by decide) hashed_roundTrips tagProps_roundTrips tagInput_distinct
    (.top "Tagged") (.ofJson tagInput)).2.2 "Tagged" "Tagged" "Tagged" rfl

/-- Beside an optional key, a text that was decoded is lost to the plain one and then encoded again. -/
theorem tagged_not_roundTrips : (∀ prop ∈ tagProps ++ noteProps, prop.2.RoundTrips) ∧
    (Shape.object "Tagged" tagProps false).decode tagInput = .ok (.obj [("tag", .str "x")]) ∧
    tagged.decode tagInput = .ok (.obj [("tag", .str "#x")]) ∧
    tagged.encode (.obj [("tag", .str "#x")]) = .obj [("tag", .str "##x")] ∧ ¬tagged.RoundTrips := by
  refine ⟨tagProps_roundTrips, rfl, rfl, rfl, fun trips => ?_⟩
  have back := trips tagInput tagInput_distinct (.top "Tagged") (.ofJson tagInput) rfl
  revert back
  decide

end Hashed

end Conform.Shape
