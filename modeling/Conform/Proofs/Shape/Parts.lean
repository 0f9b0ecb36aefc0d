import Conform.Proofs.Shape.Merge
import Conform.Proofs.TypeTree

namespace Conform.Shape

variable {ω : Type}

/-- What stays of a value that one side of an object type decoded and the other side passed through. -/
def settle (beside : Bool) (value : Json) (part : Decoded ω) : Decoded ω :=
  if beside && !part.holdsConstructed then .ofJson value else part

/-- A part beside a plain copy is settled: it stays when it holds an instance. -/
theorem keepConstructed_ofJson_right (part : Decoded ω) (value : Json) :
    keepConstructed part (.ofJson value) = settle true value part := by
  rw [keepConstructed, settle, Decoded.holdsConstructed_ofJson]
  cases part.holdsConstructed <;> rfl

theorem keepConstructed_ofJson_left (value : Json) (part : Decoded ω) :
    keepConstructed (.ofJson value) part = part := by
  rw [keepConstructed, Decoded.holdsConstructed_ofJson]
  rfl

section Object

variable {name : String} {props : List (String × Shape ω)} {lenient : Bool} {input : Json} {here : Position}

/-- An accepted object is decoded key by key. -/
theorem validate_object_parts (nodup : (Fields.keys props).Nodup) (reporting : ∀ prop ∈ props, prop.2.Reporting)
    {d : Decoded ω} (accepted : (object name props lenient).validate input here = .ok d) :
    ∃ (fields : Fields Json) (part : String → Json → Decoded ω), input = .obj fields ∧
      d = .obj (fields.mapWithKey part) ∧
      (∀ prop ∈ props, ∀ value, Fields.get? prop.1 fields = some value →
        ∃ place, prop.2.validate value place = .ok (part prop.1 value)) ∧
      (∀ key, key ∉ Fields.keys props → ∀ value, part key value = .ofJson value) ∧
      ∀ prop ∈ props, Fields.get? prop.1 fields = none → lenient = true := by
  obtain ⟨fields, parts, rfl, rfl, declared, others, absent⟩ := validate_object_eq_ok nodup reporting accepted
  refine ⟨fields, fun key value => (Fields.last? key parts).getD (.ofJson value), rfl, rfl, ?_, ?_, absent⟩
  · intro prop member value present
    obtain ⟨part, last, validated⟩ := declared prop member value present
    exact ⟨_, by simpa only [last, Option.getD_some] using validated⟩
  · intro key undeclared value
    simp only [others key undeclared, Option.getD_none]

/-- A strict object that is accepted has a part for every declared key. -/
theorem validate_strict_parts (nodup : (Fields.keys props).Nodup) (reporting : ∀ prop ∈ props, prop.2.Reporting)
    {d : Decoded ω} (accepted : (object name props false).validate input here = .ok d) :
    ∃ (fields : Fields Json) (part : String → Json → Decoded ω), input = .obj fields ∧
      d = .obj (fields.mapWithKey part) ∧
      (∀ prop ∈ props, ∃ value place, Fields.get? prop.1 fields = some value ∧
        prop.2.validate value place = .ok (part prop.1 value)) ∧
      ∀ key, key ∉ Fields.keys props → ∀ value, part key value = .ofJson value := by
  obtain ⟨fields, part, rfl, rfl, declared, others, absent⟩ := validate_object_parts nodup reporting accepted
  refine ⟨fields, part, rfl, rfl, fun prop member => ?_, others⟩
  cases present : Fields.get? prop.1 fields with
  | none => cases absent prop member present
  | some value =>
    obtain ⟨place, validated⟩ := declared prop member value present
    exact ⟨value, place, rfl, validated⟩

end Object

section Parts

variable {name : Option String} {required optional : List (String × Shape ω)} {input : Json} {here : Position}

/-- What an object with required and with optional keys decodes to. Beside optional keys, a required
key keeps only a part that holds something constructed. -/
theorem validate_ofParts_eq_ok (nodupRequired : (Fields.keys required).Nodup)
    (nodupOptional : (Fields.keys optional).Nodup)
    (apart : ∀ key ∈ Fields.keys required, key ∉ Fields.keys optional)
    (reportingRequired : ∀ prop ∈ required, prop.2.Reporting)
    (reportingOptional : ∀ prop ∈ optional, prop.2.Reporting) {d : Decoded ω}
    (accepted : (ofParts name required optional).validate input here = .ok d) :
    ∃ (fields : Fields Json) (part : String → Json → Decoded ω), input = .obj fields ∧
      ((Fields.keys fields).Nodup → d = .obj (fields.mapWithKey part)) ∧
      (∀ prop ∈ required, ∃ value place l, Fields.get? prop.1 fields = some value ∧
        prop.2.validate value place = .ok l ∧ part prop.1 value = settle (!optional.isEmpty) value l) ∧
      (∀ prop ∈ optional, ∀ value, Fields.get? prop.1 fields = some value →
        ∃ place, prop.2.validate value place = .ok (part prop.1 value)) ∧
      ∀ key, key ∉ Fields.keys required → key ∉ Fields.keys optional →
        ∀ value, part key value = .ofJson value := by
  cases required with
  | nil =>
    obtain ⟨fields, part, rfl, rfl, declared, others, _⟩ :=
      validate_object_parts nodupOptional reportingOptional accepted
    exact ⟨fields, part, rfl, fun _ => rfl, by simp, declared, fun key _ => others key⟩
  | cons first rest => cases optional with
    | nil =>
      obtain ⟨fields, part, rfl, rfl, declared, others⟩ :=
        validate_strict_parts nodupRequired reportingRequired accepted
      refine ⟨fields, part, rfl, fun _ => rfl, ?_, by simp, fun key undeclared _ => others key undeclared⟩
      intro prop member
      obtain ⟨value, place, present, validated⟩ := declared prop member
      exact ⟨value, place, _, present, validated, rfl⟩
    | cons firstOptional restOptional =>
      obtain ⟨a, b, strictly, leniently, rfl⟩ := validate_intersection_eq_ok_iff.mp accepted
      obtain ⟨fields, left, rfl, rfl, declaredLeft, othersLeft⟩ :=
        validate_strict_parts nodupRequired reportingRequired strictly
      obtain ⟨_, right, same, rfl, declaredRight, othersRight, _⟩ :=
        validate_object_parts nodupOptional reportingOptional leniently
      cases same
      refine ⟨fields, fun key value => keepConstructed (left key value) (right key value), rfl,
        fun nodup => merge_mapWithKey nodup left right, ?_, ?_, ?_⟩
      · intro prop member
        obtain ⟨value, place, present, validated⟩ := declaredLeft prop member
        have undeclared := apart prop.1 (Fields.mem_keys_of_mem member)
        refine ⟨value, place, _, present, validated, ?_⟩
        simp only [othersRight prop.1 undeclared, keepConstructed_ofJson_right, List.isEmpty_cons, Bool.not_false]
      · intro prop member value present
        obtain ⟨place, validated⟩ := declaredRight prop member value present
        have undeclared : prop.1 ∉ Fields.keys (first :: rest) :=
          fun declared => apart prop.1 declared (Fields.mem_keys_of_mem member)
        exact ⟨place, by simp only [othersLeft prop.1 undeclared, keepConstructed_ofJson_left, validated]⟩
      · intro key notRequired notOptional value
        simp only [othersLeft key notRequired, othersRight key notOptional, keepConstructed_ofJson_left]

theorem ofParts_reporting (name : Option String) (required optional : List (String × Shape ω)) :
    (ofParts name required optional).Reporting := by
  cases required with
  | nil => exact object_reporting _ optional true
  | cons first rest => cases optional with
    | nil => exact object_reporting _ (first :: rest) false
    | cons => exact intersection_reporting (object_reporting _ _ false) (object_reporting _ _ true)

/-- An object is rejected for a required key that is absent or for a declared key that is rejected. -/
theorem validate_ofParts_eq_invalid {found : List Mismatch} {fields : Fields Json}
    (rejected : (ofParts name required optional).validate (.obj fields) here = .error (.invalid found)) :
    (∃ prop ∈ required, Fields.get? prop.1 fields = none) ∨
      ∃ prop ∈ required ++ optional, ∃ value, Fields.get? prop.1 fields = some value ∧
        ∃ place more, prop.2.validate value place = .error (.invalid more) := by
  have strictly {found : List Mismatch}
      (rejected : (strict name required).validate (.obj fields) here = .error (.invalid found)) :
      (∃ prop ∈ required, Fields.get? prop.1 fields = none) ∨
        ∃ prop ∈ required ++ optional, ∃ value, Fields.get? prop.1 fields = some value ∧
          ∃ place more, prop.2.validate value place = .error (.invalid more) := by
    obtain ⟨_, prop, member, ⟨absent, _⟩ | wrong⟩ := validate_object_eq_invalid rejected
    · exact Or.inl ⟨prop, member, absent⟩
    · exact Or.inr ⟨prop, List.mem_append_left _ member, wrong⟩
  have leniently {found : List Mismatch}
      (rejected : (lenient name optional).validate (.obj fields) here = .error (.invalid found)) :
      ∃ prop ∈ required ++ optional, ∃ value, Fields.get? prop.1 fields = some value ∧
        ∃ place more, prop.2.validate value place = .error (.invalid more) := by
    obtain ⟨_, prop, member, ⟨_, strict⟩ | wrong⟩ := validate_object_eq_invalid rejected
    · cases strict
    · exact ⟨prop, List.mem_append_right _ member, wrong⟩
  cases required with
  | nil => exact Or.inr (leniently rejected)
  | cons first rest => cases optional with
    | nil => exact strictly rejected
    | cons =>
      obtain ⟨_, ⟨more, left⟩ | ⟨more, right⟩⟩ := validate_intersection_eq_invalid
        (object_reporting _ _ false) (object_reporting _ _ true) rejected
      · exact strictly left
      · exact Or.inr (leniently right)

theorem validate_ofParts_eq_fatal {e : DecodeError}
    (failed : (ofParts name required optional).validate input here = .error (.fatal e)) :
    ∃ prop ∈ required ++ optional, ∃ fields value place, input = .obj fields ∧
      Fields.get? prop.1 fields = some value ∧ prop.2.validate value place = .error (.fatal e) := by
  have strictly (failed : (strict name required).validate input here = .error (.fatal e)) :
      ∃ prop ∈ required ++ optional, ∃ fields value place, input = .obj fields ∧
        Fields.get? prop.1 fields = some value ∧ prop.2.validate value place = .error (.fatal e) := by
    obtain ⟨prop, member, cause⟩ := validate_object_eq_fatal failed
    exact ⟨prop, List.mem_append_left _ member, cause⟩
  have leniently (failed : (lenient name optional).validate input here = .error (.fatal e)) :
      ∃ prop ∈ required ++ optional, ∃ fields value place, input = .obj fields ∧
        Fields.get? prop.1 fields = some value ∧ prop.2.validate value place = .error (.fatal e) := by
    obtain ⟨prop, member, cause⟩ := validate_object_eq_fatal failed
    exact ⟨prop, List.mem_append_right _ member, cause⟩
  cases required with
  | nil => exact leniently failed
  | cons first rest => cases optional with
    | nil => exact strictly failed
    | cons =>
      rcases validate_intersection_eq_fatal failed with left | right
      · exact strictly left
      · exact leniently right

end Parts

section Props

variable {name : Option String} {attrs : Bool} {required optional : List (String × Shape ω)} {input : Json}
  {here : Position}

/-- A record that declares the reserved key puts an empty object under it after all else. -/
theorem validate_ofProps_eq_ok {d : Decoded ω}
    (accepted : (ofProps name attrs required optional).validate input here = .ok d) :
    ∃ inner, (ofParts name required optional).validate input here = .ok inner ∧
      d = if attrs then setAttrs inner else inner := by
  cases attrs with
  | false => exact ⟨d, accepted, rfl⟩
  | true =>
    simp only [ofProps, if_true, validate] at accepted
    obtain ⟨inner, validated, rfl⟩ := except_map_eq_ok_iff.mp accepted
    exact ⟨inner, validated, rfl⟩

/-- The reserved key adds no reason to reject. -/
theorem validate_ofProps_eq_error_iff {f : Failure} :
    (ofProps name attrs required optional).validate input here = .error f ↔
      (ofParts name required optional).validate input here = .error f := by
  cases attrs with
  | false => exact Iff.rfl
  | true =>
    simp only [ofProps, if_true, validate]
    exact except_map_eq_error_iff

end Props

end Conform.Shape
