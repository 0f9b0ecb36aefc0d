import Conform.Proofs.Shape.Parts

namespace Conform.TypeTree

variable {ω : Type} {name : Option String} {attrs : Bool} {props : List (Property (TypeTree ω))}

/-- How the fields of an accepted object were decoded. A required property beside optional ones keeps
only a part that holds something constructed. -/
structure Settled (props : List (Property (TypeTree ω))) (fields : Fields Json)
    (part : String → Json → Decoded ω) : Prop where
  present : ∀ p ∈ props, Fields.get? p.name fields = none → p.optional = true
  declared : ∀ p ∈ props, ∀ value, Fields.get? p.name fields = some value →
    ∃ place l, p.type.shape.validate value place = .ok l ∧
      part p.name value = Shape.settle (!p.optional && props.any (·.optional)) value l
  others : ∀ key ∉ props.map Property.name, ∀ value, part key value = .ofJson value

theorem isEmpty_propShapes (optional : Bool) (props : List (Property (TypeTree ω))) :
    (propShapes optional props).isEmpty = !props.any (·.optional == optional) := by
  induction props with
  | nil => rfl
  | cons p rest ih =>
    obtain ⟨name, type, isOptional⟩ := p
    by_cases same : isOptional = optional <;> simp [propShapes, same, ih]

theorem mem_keys_propShapes {optional : Bool} {props : List (Property (TypeTree ω))} {key : String} :
    key ∈ Fields.keys (propShapes optional props) ↔ ∃ p ∈ props, p.optional = optional ∧ p.name = key := by
  rw [Fields.keys, List.mem_map]
  constructor
  · rintro ⟨entry, member, rfl⟩
    obtain ⟨p, inProps, same, rfl⟩ := mem_propShapes.mp member
    exact ⟨p, inProps, same, rfl⟩
  · rintro ⟨p, inProps, same, rfl⟩
    exact ⟨_, mem_propShapes.mpr ⟨p, inProps, same, rfl⟩, rfl⟩

theorem eq_of_name_eq (nodup : (props.map Property.name).Nodup) {p q : Property (TypeTree ω)} (left : p ∈ props)
    (right : q ∈ props) (same : p.name = q.name) : p = q :=
  List.inj_on_of_nodup_map nodup left right same

theorem find?_of_mem (nodup : (props.map Property.name).Nodup) {p : Property (TypeTree ω)} (member : p ∈ props) :
    props.find? (fun q => q.name = p.name) = some p := by
  cases found : props.find? (fun q => q.name = p.name) with
  | none =>
    have different := List.find?_eq_none.mp found p member
    simp at different
  | some q =>
    have same : q.name = p.name := by simpa using List.find?_some found
    rw [eq_of_name_eq nodup (List.mem_of_find?_eq_some found) member same]

theorem find?_of_not_mem {key : String} (absent : key ∉ props.map Property.name) :
    props.find? (fun q => q.name = key) = none := by
  refine List.find?_eq_none.mpr fun q member => ?_
  rw [decide_eq_true_eq]
  rintro rfl
  exact absent (List.mem_map_of_mem member)

theorem name_ne_attrs (reserved : attrsKey ∉ props.map Property.name) {p : Property (TypeTree ω)} (member : p ∈ props) :
    p.name ≠ attrsKey := by
  intro equal
  rw [← equal] at reserved
  exact reserved (List.mem_map_of_mem member)

theorem not_mem_keys_propShapes (nodup : (props.map Property.name).Nodup) {p : Property (TypeTree ω)}
    (member : p ∈ props) {optional : Bool} (other : p.optional ≠ optional) :
    p.name ∉ Fields.keys (propShapes optional props) := by
  intro known
  obtain ⟨q, inProps, kind, same⟩ := mem_keys_propShapes.mp known
  rw [eq_of_name_eq nodup inProps member same] at kind
  exact other kind

/-- An accepted record is an object whose declared parts are settled one by one, with the reserved
key put in where the record declares it. -/
theorem validate_record_eq_ok (nodup : (props.map Property.name).Nodup)
    (reporting : ∀ p ∈ props, p.type.shape.Reporting) {input : Json} {here : Position} {d : Decoded ω}
    (accepted : (record name attrs props).shape.validate input here = .ok d) :
    ∃ (fields : Fields Json) (part : String → Json → Decoded ω), input = .obj fields ∧
      Settled props fields part ∧ ((Fields.keys fields).Nodup →
        d = if attrs then Shape.setAttrs (.obj (fields.mapWithKey part)) else .obj (fields.mapWithKey part)) := by
  obtain ⟨inner, validated, rfl⟩ := Shape.validate_ofProps_eq_ok accepted
  have keysNodup (optional : Bool) : (Fields.keys (propShapes optional props)).Nodup :=
    nodup.sublist (keys_propShapes_sublist optional props)
  have reports (optional : Bool) : ∀ prop ∈ propShapes optional props, prop.2.Reporting := by
    intro prop member
    obtain ⟨p, inProps, _, rfl⟩ := mem_propShapes.mp member
    exact reporting p inProps
  have apart : ∀ key ∈ Fields.keys (propShapes false props), key ∉ Fields.keys (propShapes true props) := by
    intro key required
    obtain ⟨p, member, isRequired, rfl⟩ := mem_keys_propShapes.mp required
    exact not_mem_keys_propShapes nodup member (by simp [isRequired])
  obtain ⟨fields, part, rfl, built, required, optional, others⟩ := Shape.validate_ofParts_eq_ok (keysNodup false)
    (keysNodup true) apart (reports false) (reports true) validated
  refine ⟨fields, part, rfl, ⟨?_, ?_, ?_⟩, fun distinct => by rw [built distinct]⟩
  · intro p member absent
    cases kind : p.optional with
    | true => rfl
    | false =>
      obtain ⟨value, _, _, present, _⟩ := required _ (mem_propShapes.mpr ⟨p, member, kind, rfl⟩)
      rw [absent] at present
      cases present
  · intro p member value present
    cases kind : p.optional with
    | true =>
      obtain ⟨place, accepted⟩ := optional _ (mem_propShapes.mpr ⟨p, member, kind, rfl⟩) value present
      exact ⟨place, _, accepted, rfl⟩
    | false =>
      obtain ⟨value', place, l, present', accepted, settled⟩ :=
        required _ (mem_propShapes.mpr ⟨p, member, kind, rfl⟩)
      cases present.symm.trans present'
      refine ⟨place, l, accepted, ?_⟩
      rw [settled, isEmpty_propShapes]
      simp
  · intro key undeclared
    refine others key ?_ ?_ <;>
      exact fun declared => undeclared ((keys_propShapes_sublist _ props).subset declared)

/-- A record rejects what is no object, what lacks a required key, and what a property rejects. -/
theorem validate_record_eq_invalid {input : Json} {here : Position} {found : List Mismatch}
    (rejected : (record name attrs props).shape.validate input here = .error (.invalid found)) :
    (∀ fields, input ≠ .obj fields) ∨ ∃ fields, input = .obj fields ∧ ∃ p ∈ props,
      (Fields.get? p.name fields = none ∧ p.optional = false) ∨ ∃ value, Fields.get? p.name fields = some value ∧
        ∃ place more, p.type.shape.validate value place = .error (.invalid more) := by
  have parts := Shape.validate_ofProps_eq_error_iff.mp rejected
  cases input with
  | obj fields =>
    refine Or.inr ⟨fields, rfl, ?_⟩
    rcases Shape.validate_ofParts_eq_invalid parts with ⟨prop, member, absent⟩ | ⟨prop, member, wrong⟩
    · obtain ⟨p, inProps, isRequired, rfl⟩ := mem_propShapes.mp member
      exact ⟨p, inProps, Or.inl ⟨absent, isRequired⟩⟩
    · rcases List.mem_append.mp member with required | optional
      · obtain ⟨p, inProps, _, rfl⟩ := mem_propShapes.mp required
        exact ⟨p, inProps, Or.inr wrong⟩
      · obtain ⟨p, inProps, _, rfl⟩ := mem_propShapes.mp optional
        exact ⟨p, inProps, Or.inr wrong⟩
  | _ => exact Or.inl (by simp)

/-- Only a property can make a record fail. -/
theorem validate_record_eq_fatal {input : Json} {here : Position} {e : DecodeError}
    (failed : (record name attrs props).shape.validate input here = .error (.fatal e)) :
    ∃ p ∈ props, ∃ fields value place, input = .obj fields ∧ Fields.get? p.name fields = some value ∧
      p.type.shape.validate value place = .error (.fatal e) := by
  obtain ⟨prop, member, cause⟩ := Shape.validate_ofParts_eq_fatal (Shape.validate_ofProps_eq_error_iff.mp failed)
  rcases List.mem_append.mp member with required | optional
  · obtain ⟨p, inProps, _, rfl⟩ := mem_propShapes.mp required
    exact ⟨p, inProps, cause⟩
  · obtain ⟨p, inProps, _, rfl⟩ := mem_propShapes.mp optional
    exact ⟨p, inProps, cause⟩

end Conform.TypeTree
