import Conform.Proofs.Reference
import Conform.Proofs.Shape.Encode

namespace Conform

variable {ω : Type}

/-- A timestamp in the form in which it is written back. -/
def Stock.normalize : Stock → Json → Json
  | date, .str text =>
    match Instant.read? text with
    | some moment => .str moment.render
    | none => .str text
  | _, input => input

namespace TypeTree

def dropAttrs (attrs : Bool) (fields : Fields Json) : Fields Json :=
  if attrs then Fields.erase attrsKey fields else fields

theorem nodup_keys_dropAttrs {fields : Fields Json} (nodup : (Fields.keys fields).Nodup) (attrs : Bool) :
    (Fields.keys (dropAttrs attrs fields)).Nodup := by
  cases attrs with
  | false => exact nodup
  | true => exact Fields.nodup_keys_erase nodup attrsKey

theorem get?_dropAttrs {fields : Fields Json} (nodup : (Fields.keys fields).Nodup) (attrs : Bool) (key : String) :
    Fields.get? key (dropAttrs attrs fields) =
      if attrs = true ∧ key = attrsKey then none else Fields.get? key fields := by
  cases attrs with
  | false => simp [dropAttrs]
  | true => simp [dropAttrs, Fields.get?_erase nodup]

mutual

/-- What decoding and encoding make of an input: no `attrs` in an object whose type declares it, and
timestamps in one form. -/
def normalize : TypeTree ω → Json → Json
  | scalar _, input => input
  | stock kind, input => kind.normalize input
  | array element, .arr items => .arr (items.map (normalize element))
  | array _, input => input
  | union members, input => normalizeFirst members input
  | record _ attrs props, .obj fields => .obj (dropAttrs attrs (Fields.mapWithKey (normalizeProp props) fields))
  | record _ _ _, input => input
  | ofClass _ inner _, input => normalize inner input

/-- The first member that the input conforms to decides. -/
def normalizeFirst : List (TypeTree ω) → Json → Json
  | [], input => input
  | member :: rest, input => if member.conforms input then normalize member input else normalizeFirst rest input

def normalizeProp : List (Property (TypeTree ω)) → String → Json → Json
  | [], _, value => value
  | ⟨name, type, _⟩ :: rest, key, value => if name = key then normalize type value else normalizeProp rest key value

end

/-- A union drops what its first conforming member drops. -/
theorem normalizeFirst_eq {members : List (TypeTree ω)} {member : TypeTree ω} {input : Json}
    (first : members.find? (fun m => m.conforms input) = some member) :
    normalizeFirst members input = member.normalize input := by
  induction members with
  | nil => cases first
  | cons other rest ih =>
    cases fits : other.conforms input with
    | true =>
      simp only [List.find?_cons, fits, Option.some.injEq] at first
      subst first
      rw [normalizeFirst, if_pos fits]
    | false =>
      simp only [List.find?_cons, fits] at first
      rw [normalizeFirst, fits, if_neg Bool.false_ne_true, ih first]

theorem normalizeFirst_of_none {members : List (TypeTree ω)} {input : Json}
    (rejected : members.find? (fun m => m.conforms input) = none) : normalizeFirst members input = input := by
  induction members with
  | nil => rfl
  | cons other rest ih =>
    have rejected := List.find?_eq_none.mp rejected
    obtain ⟨here, later⟩ := List.forall_mem_cons.mp rejected
    rw [normalizeFirst, if_neg here, ih (List.find?_eq_none.mpr later)]

theorem normalizeProp_eq (props : List (Property (TypeTree ω))) (key : String) (value : Json) :
    normalizeProp props key value =
      (props.find? fun p => p.name = key).elim value fun p => p.type.normalize value := by
  induction props with
  | nil => rfl
  | cons p rest ih =>
    obtain ⟨name, type, optional⟩ := p
    by_cases same : name = key <;> simp [normalizeProp, same, ih]

/-- A declared key is normalized by its own type. -/
theorem normalizeProp_of_mem {props : List (Property (TypeTree ω))} (nodup : (props.map Property.name).Nodup)
    {p : Property (TypeTree ω)} (member : p ∈ props) (value : Json) :
    normalizeProp props p.name value = p.type.normalize value := by
  rw [normalizeProp_eq, find?_of_mem nodup member, Option.elim_some]

theorem normalizeProp_of_not_mem {props : List (Property (TypeTree ω))} {key : String}
    (absent : key ∉ props.map Property.name) (value : Json) : normalizeProp props key value = value := by
  rw [normalizeProp_eq, find?_of_not_mem absent, Option.elim_none]

section Record

variable {name : Option String} {attrs : Bool} {props : List (Property (TypeTree ω))}

/-- An object belongs to a record when each declared part belongs, an optional one also when it is
left out. -/
theorem is_record_obj_iff {parts : Fields (Decoded ω)} :
    (record name attrs props).shape.is (.obj parts) = true ↔ ∀ p ∈ props,
      (Fields.get? p.name parts = none → p.optional = true) ∧
        ∀ d, Fields.get? p.name parts = some d → p.type.shape.is d = true := by
  rw [shape, Shape.is_ofProps, Shape.is_ofParts_obj, Bool.and_eq_true, Shape.propsAre_iff, Shape.propsAre_iff]
  constructor
  · rintro ⟨required, optional⟩ p member
    cases kind : p.optional with
    | false => simpa using required _ (mem_propShapes.mpr ⟨p, member, kind, rfl⟩)
    | true => simpa using optional _ (mem_propShapes.mpr ⟨p, member, kind, rfl⟩)
  · intro each
    constructor <;> intro prop inShapes <;> obtain ⟨p, member, kind, rfl⟩ := mem_propShapes.mp inShapes
    · simpa only [kind] using each p member
    · exact ⟨fun _ => rfl, (each p member).2⟩

/-- A declared key is encoded by its own type, on whichever side it is declared. -/
theorem encodeBeside_of_mem (nodup : (props.map Property.name).Nodup) {p : Property (TypeTree ω)} (member : p ∈ props)
    (d : Decoded ω) : (Shape.encodeBeside (propShapes false props) (propShapes true props) p.name d).normal =
      (p.type.shape.encode d).normal := by
  have keysNodup : (Fields.keys (propShapes p.optional props)).Nodup :=
    nodup.sublist (keys_propShapes_sublist p.optional props)
  have shaped : (p.name, p.type.shape) ∈ propShapes p.optional props := mem_propShapes.mpr ⟨p, member, rfl, rfl⟩
  cases kind : p.optional with
  | false =>
    rw [kind] at keysNodup shaped
    have absent : p.name ∉ Fields.keys (propShapes true props) :=
      not_mem_keys_propShapes nodup member (by simp [kind])
    rw [Shape.encodeBeside_of_not_optional absent, Shape.encodeField_of_mem keysNodup shaped]
  | true =>
    rw [kind] at keysNodup shaped
    have absent : p.name ∉ Fields.keys (propShapes false props) :=
      not_mem_keys_propShapes nodup member (by simp [kind])
    rw [Shape.encodeBeside_of_not_required absent, Shape.encodeField_of_mem keysNodup shaped]

theorem encodeBeside_of_not_mem {key : String} (undeclared : key ∉ props.map Property.name) (d : Decoded ω) :
    (Shape.encodeBeside (propShapes false props) (propShapes true props) key d).normal = d.toJson.normal := by
  have absent (optional : Bool) : key ∉ Fields.keys (propShapes optional props) :=
    fun known => undeclared ((keys_propShapes_sublist optional props).subset known)
  rw [Shape.encodeBeside_of_not_optional (absent true), Shape.encodeField_of_not_mem (absent false)]

/-- The encoding of an object: without the `attrs` that its type declares, and every other field by
its declaration. -/
theorem encode_record_obj (nodup : (props.map Property.name).Nodup) {parts : Fields (Decoded ω)}
    (distinct : (Fields.keys parts).Nodup) :
    ∃ (out : Fields Json) (part : String → Decoded ω → Json),
      (record name attrs props).shape.encode (.obj parts) = .obj out ∧ (Fields.keys out).Nodup ∧
      (∀ key, Fields.get? key out =
        if attrs = true ∧ key = attrsKey then none else (Fields.get? key parts).map (part key)) ∧
      (∀ p ∈ props, ∀ d, (part p.name d).normal = (p.type.shape.encode d).normal) ∧
      ∀ key ∉ props.map Property.name, ∀ d, (part key d).normal = d.toJson.normal := by
  obtain ⟨out, encoded, distinctOut, written⟩ :=
    @Shape.encode_ofProps_obj ω (propShapes false props) (propShapes true props) parts distinct name attrs
  have each := Shape.encodeParts_normal (propShapes false props) (propShapes true props)
  refine ⟨out, _, encoded, distinctOut, written, fun p member d => ?_, fun key undeclared d => ?_⟩
  · exact (each p.name d).trans (encodeBeside_of_mem nodup member d)
  · exact (each key d).trans (encodeBeside_of_not_mem undeclared d)

end Record

end TypeTree

end Conform
