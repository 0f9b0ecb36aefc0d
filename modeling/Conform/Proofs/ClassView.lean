import Conform.Proofs.Book
import Conform.Proofs.Shape.Dropped

namespace Conform

variable {ω : Type}

namespace Shape

/-- Whether encoding a value as the shape takes an `attrs` away below the top. -/
def dropsInside : Shape ω → Decoded ω → Bool
  | .withAttrs inner, d => dropsAttrs inner d
  | s, d => dropsAttrs s d

section Parts

variable {name : Option String} {required optional : List (String × Shape ω)}

theorem dropsInside_ofParts (d : Decoded ω) :
    (ofParts name required optional).dropsInside d = (ofParts name required optional).dropsAttrs d := by
  cases required with
  | nil => rfl
  | cons first others => cases optional <;> rfl

theorem obj_of_validate_object {name : String} {props : List (String × Shape ω)} {lenient : Bool} {input : Json}
    {here : Position} {d : Decoded ω} (accepted : (object name props lenient).validate input here = .ok d) :
    ∃ fields, d = .obj fields := by
  cases input with
  | obj fields =>
    rw [validate] at accepted
    unfold Findings.finish at accepted
    split at accepted
    · cases accepted
    · split at accepted
      · cases accepted
        exact ⟨_, rfl⟩
      · cases accepted
  | _ => cases accepted

theorem obj_of_validate_ofParts {input : Json} {here : Position} {d : Decoded ω}
    (accepted : (ofParts name required optional).validate input here = .ok d) : ∃ fields, d = .obj fields := by
  cases required with
  | nil => exact obj_of_validate_object accepted
  | cons first others => cases optional with
    | nil => exact obj_of_validate_object accepted
    | cons =>
      obtain ⟨a, b, strictly, leniently, rfl⟩ := validate_intersection_eq_ok_iff.mp accepted
      obtain ⟨left, rfl⟩ := obj_of_validate_object strictly
      obtain ⟨right, rfl⟩ := obj_of_validate_object leniently
      exact ⟨_, rfl⟩

/-- Below an empty `attrs`, what is shown to a constructor is the encoding of the object's parts. -/
theorem addAttrs_withoutAttrs_encode {fields : Fields (Decoded ω)} (nodup : (Fields.keys fields).Nodup)
    (empty : Fields.get? attrsKey fields = some (.obj [])) (freeRequired : attrsKey ∉ Fields.keys required)
    (freeOptional : attrsKey ∉ Fields.keys optional) :
    (addAttrs (withoutAttrs ((ofParts name required optional).encode (.obj fields)))).normal =
      ((ofParts name required optional).encode (.obj fields)).normal := by
  obtain ⟨part, encoded, each⟩ := @encode_ofParts_obj ω required optional fields nodup name
  have distinct := Fields.nodup_keys_mapWithKey nodup part
  rw [encoded, withoutAttrs, addAttrs,
    Json.normal_obj_eq_iff (Fields.nodup_keys_insert (Fields.nodup_keys_swapErase distinct _) _ _) distinct]
  intro key
  rw [Fields.get?_insert, Fields.get?_swapErase distinct]
  by_cases same : key = attrsKey
  · rw [if_pos same, same, Fields.get?_mapWithKey, empty, Option.map_some, Option.map_some, Option.map_some, each,
      encodeBeside_of_not_optional freeOptional, encodeField_of_not_mem freeRequired]
    rfl
  · rw [if_neg same, if_neg same]

end Parts

section Props

variable {name : Option String} {attrs : Bool} {required optional : List (String × Shape ω)}

/-- A constructor sees the structural view exactly where no `attrs` is taken away below the top. -/
theorem handed_same_iff (structural : (ofProps name attrs required optional).Structural)
    (freeRequired : attrsKey ∉ Fields.keys required) (freeOptional : attrsKey ∉ Fields.keys optional)
    {input : Json} (distinct : input.Distinct) {here : Position} {d : Decoded ω}
    (accepted : (ofProps name attrs required optional).validate input here = .ok d) :
    (handed (ofProps name attrs required optional) attrs d).normal = d.toJson.normal ↔
      (ofProps name attrs required optional).dropsInside d = false := by
  have distinctPlain := structural.keepsDistinct distinct accepted
  cases attrs with
  | false =>
    have plain : (ofParts name required optional).Structural := structural
    have shown := (plain.rendering d distinctPlain).same_iff
    rw [← dropsInside_ofParts] at shown
    exact shown
  | true =>
    obtain ⟨inner, validated, rfl⟩ := validate_ofProps_eq_ok accepted
    obtain ⟨parts, rfl⟩ := obj_of_validate_ofParts validated
    have wrapped : (Shape.withAttrs (ofParts name required optional)).Structural := structural
    cases wrapped with
    | withAttrs core =>
      have shown := @addAttrs_withoutAttrs_encode ω name _ _ _ (Decoded.distinct_obj_iff.mp distinctPlain).1
        (Fields.get?_insert_self _ _ parts) freeRequired freeOptional
      exact (Eq.congr_left shown).trans (core.rendering _ distinctPlain).same_iff

end Props

end Shape

section Class

variable {r : Registry ω} {events : List (Event ω)}

theorem decode_named_eq_ok_iff {name : String} {shape : Shape ω} {attrs : Bool}
    (found : r.slot? name = some (.resolved shape attrs)) {input : Json} {d : Decoded ω} :
    (Decoder.mk r).decode (.named name) input = .ok (.ok d) ↔ shape.decode input = .ok d := by
  rw [Decoder.decode_eq_ok_iff]
  simp [Registry.resolveTarget, Target.elaborate, Registry.scope, Registry.resolve, found]

/-- What a constructor is handed, which its object keeps and shows, is the structural view that the
schema decodes to exactly where encoding takes no `attrs` away below the top. -/
theorem class_sees_schema_iff (reached : r.Reached events) {c : ClassDefinition ω}
    (member : .registered (.ofClass c) ∈ events) {inner : Shape ω} (resolved : r.resolve c.schema.name = .ok inner)
    (structural : inner.Structural) {input : Json} (distinct : input.Distinct) {out : Decoded ω}
    (accepted : (Decoder.mk r).decode (.named c.className) input = .ok (.ok out)) :
    ∃ d raw product, (Decoder.mk r).decode (.named c.schema.name) input = .ok (.ok d) ∧
      c.construct raw = .ok product ∧ out = .constructed c.className raw product ∧ out.toJson = raw ∧
      (raw.same d.toJson = true ↔ inner.dropsInside d = false) := by
  obtain ⟨shape, scope, elaborated, schemaSlot, classSlot⟩ := reached.of_class member
  have same : shape = inner := by simpa [Registry.resolve, schemaSlot] using resolved
  subst same
  obtain ⟨required, optional, first, second, rfl⟩ := assemble_elaborateProps elaborated
  obtain ⟨d, product, validated, constructed, rfl⟩ :=
    Shape.validate_ofClass_eq_ok ((decode_named_eq_ok_iff classSlot).mp accepted)
  have decoded : (Decoder.mk r).decode (.named c.schema.name) input = .ok (.ok d) :=
    (decode_named_eq_ok_iff schemaSlot).mpr (structural.validate_eq_ok validated _)
  have freeRequired := TypeExpr.attrs_not_mem_elaborateProps first
  have freeOptional := TypeExpr.attrs_not_mem_elaborateProps second
  refine ⟨d, _, product, decoded, constructed, rfl, rfl, ?_⟩
  rw [Json.same_iff]
  exact Shape.handed_same_iff structural freeRequired freeOptional distinct validated

end Class

section Parcel

/-- A schema that declares `attrs`, and a class whose schema refers to it. -/
def labelSchema : Schema := ⟨"Label", [⟨"text", .scalar .string, false⟩, ⟨attrsKey, .scalar .string, false⟩]⟩

def parcelClass : ClassDefinition Json where
  className := "Parcel"
  schema := ⟨"Content", [⟨"label", .reference "Label", false⟩]⟩
  construct raw := .ok (.made raw)

def parcelEvents : List (Event Json) := [.registered (.ofClass parcelClass), .registered (.schema labelSchema)]

def parcelRegistry : Registry Json :=
  ((Registry.empty.register (.schema labelSchema)).1.register (.ofClass parcelClass)).1

def contentShape : Shape Json :=
  .object "Content" [("label", .withAttrs (.object "Label" [("text", .scalar .string)] false))] false

def parcelInput : Json := .obj [("label", .obj [("text", .str "x")])]

theorem parcelRegistry_reached : parcelRegistry.Reached parcelEvents := .register (.register .empty rfl) rfl

theorem contentShape_structural : contentShape.Structural :=
  .object (List.forall_mem_singleton.mpr (.withAttrs (.object (List.forall_mem_singleton.mpr (.scalar .string)))))

theorem parcelInput_distinct : parcelInput.Distinct := ⟨by decide, ⟨by decide, trivial, trivial⟩, trivial⟩

theorem class_sees_schema_iff_parcel : ∃ d raw product,
    (Decoder.mk parcelRegistry).decode (.named "Content") parcelInput = .ok (.ok d) ∧
      parcelClass.construct raw = .ok product ∧
      (.constructed "Parcel" parcelInput (.made parcelInput) : Decoded Json) = .constructed "Parcel" raw product ∧
      parcelInput = raw ∧ (raw.same d.toJson = true ↔ contentShape.dropsInside d = false) :=
  class_sees_schema_iff parcelRegistry_reached List.mem_cons_self rfl contentShape_structural parcelInput_distinct rfl

/-- A constructor is not shown the empty `attrs` that decoding adds below the top. -/
theorem class_misses_attrs_parcel : parcelRegistry.Reached parcelEvents ∧
    .registered (.ofClass parcelClass) ∈ parcelEvents ∧ parcelRegistry.resolve "Content" = .ok contentShape ∧
    contentShape.Structural ∧ parcelInput.Distinct ∧
    (Decoder.mk parcelRegistry).decode (.named "Parcel") parcelInput =
      .ok (.ok (.constructed "Parcel" parcelInput (.made parcelInput))) ∧
    ∃ d, (Decoder.mk parcelRegistry).decode (.named "Content") parcelInput = .ok (.ok d) ∧
      d.toJson = .obj [("label", .obj [("text", .str "x"), (attrsKey, .obj [])])] ∧
      parcelInput.same d.toJson = false :=
  ⟨parcelRegistry_reached, List.mem_cons_self, rfl, contentShape_structural, parcelInput_distinct, rfl, _, rfl, rfl,
    by decide⟩

end Parcel

end Conform
