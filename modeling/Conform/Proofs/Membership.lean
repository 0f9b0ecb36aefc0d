import Conform.Proofs.Decoding
import Conform.Proofs.Normalize

namespace Conform

variable {ω : Type}

namespace TypeTree

variable {book : Book ω} {t : TypeTree ω}

/-- A refined scalar guards the values that it accepts. -/
theorem is_refine_ofJson (name : String) (kind : Scalar) (fits : Decoded ω → Bool) (input : Json) :
    (Shape.refine name (.scalar kind) fits).is (.ofJson input) =
      (Shape.refine name (.scalar kind) fits).accepts input := by
  rw [(Shape.leaf_scalar kind).accepts_refine, Scalar.accepts_eq_holds, Shape.is, is_scalar_ofJson]

theorem exists_moment_of_accepts {input : Json} (accepted : (Stock.date.shape : Shape ω).accepts input = true) :
    ∃ text moment, input = .str text ∧ Instant.read? text = some moment := by
  cases input with
  | str text =>
    cases known : Instant.read? text with
    | some moment => exact ⟨text, moment, rfl, known⟩
    | none =>
      simp [Stock.shape, Shape.accepts, Shape.decode, Builtin.date, Builtin.date.validate, Shape.validate, known,
        Except.isOk, Except.toBool] at accepted
  | _ => cases accepted

/-- A timestamp belongs to its type as the moment that it became, another stock value as it was read. -/
theorem is_stock_value {kind : Stock} {input : Json} (accepted : (kind.shape : Shape ω).accepts input = true) :
    (kind.shape : Shape ω).is (kind.value input) = true := by
  cases kind with
  | date =>
    obtain ⟨text, moment, rfl, known⟩ := exists_moment_of_accepts accepted
    rw [Stock.value, known]
    rfl
  | latitude | longitude | nonEmptyString => exact (is_refine_ofJson _ _ _ input).trans accepted

theorem is_array_arr {element : TypeTree ω} {parts : List (Decoded ω)} :
    (array element).shape.is (.arr parts) = true ↔ ∀ part ∈ parts, element.shape.is part = true := by
  rw [shape, Shape.is, List.all_eq_true]

theorem is_union_iff {members : List (TypeTree ω)} {d : Decoded ω} :
    (union members).shape.is d = true ↔ ∃ member ∈ members, member.shape.is d = true := by
  simp only [shape, shapes_eq_map, Shape.is_oneOf, Shape.someIs_iff, List.mem_map, exists_exists_and_eq_and]

/-- An object belongs to its type where each declared part belongs to the type of its property. Neither
an `attrs` that was put beside them nor what is not declared plays a part. -/
theorem Fieldwise.is_record {P : TypeTree ω → Json → Decoded ω → Prop}
    (guards : ∀ {t : TypeTree ω} {value : Json} {d : Decoded ω}, P t value d → t.shape.is d = true)
    {name : Option String} {attrs shown : Bool} {props : List (Property (TypeTree ω))}
    (reserved : attrsKey ∉ props.map Property.name) {fields : Fields Json} {part : String → Json → Decoded ω}
    (each : Fieldwise P props fields part) :
    (record name attrs props).shape.is (.obj (putAttrs shown (Fields.mapWithKey part fields))) = true := by
  refine is_record_obj_iff.mpr fun p member => ?_
  have different : ¬(shown = true ∧ p.name = attrsKey) := fun equal => name_ne_attrs reserved member equal.2
  rw [get?_putAttrs_mapWithKey shown part fields different]
  cases found : Fields.get? p.name fields with
  | none => exact ⟨fun _ => each.present p member found, by simp⟩
  | some value => exact ⟨by simp, by simpa using guards (each.declared p member value found)⟩

/-- A value belongs to a type when its parts belong to the parts of the type. -/
theorem hereditary_is : Hereditary book fun t _ d => t.shape.is d = true where
  scalar fits := (is_scalar_ofJson _ _).trans fits
  stock _ accepted := is_stock_value accepted
  array each := by
    rw [is_array_arr]
    induction each with
    | nil => exact fun _ member => nomatch member
    | cons first _ ih => exact List.forall_mem_cons.mpr ⟨first, ih⟩
  union _ first belongs := is_union_iff.mpr ⟨_, List.mem_of_find?_eq_some first, belongs⟩
  record _ reserved _ _ each := each.is_record id reserved
  ofClass _ _ _ _ _ _ := by simp [shape, Shape.is]

/-- What decoding accepts belongs to its type, and so does the input itself where nothing was constructed. -/
theorem WellFormed.belongs (wellFormed : t.WellFormed book) {input : Json} (distinct : input.Distinct)
    {here : Position} {d : Decoded ω} (accepted : t.shape.validate input here = .ok d) :
    Survives (fun d => t.shape.is d = true) input d :=
  wellFormed.survives hereditary_is distinct accepted

end TypeTree

/-- A decoded value passes the type guard of the shape that decoded it. -/
theorem decoded_passes_guard {r : Registry ω} {events : List (Event ω)} (reached : r.Reached events)
    (plain : ∀ event ∈ events, event.Plain) {target : Target} {input : Json} (distinct : input.Distinct)
    {d : Decoded ω} (accepted : (Decoder.mk r).decode target input = .ok (.ok d)) :
    ∃ shape, r.resolveTarget target = .ok shape ∧ shape.is d = true := by
  have described := reached.described plain
  obtain ⟨tree, expanded, wellFormed, validated⟩ := described.of_decode accepted
  exact ⟨tree.shape, described.resolveTarget_eq_ok target expanded, (wellFormed.belongs distinct validated).decoded⟩

section Ledger

/-- A ledger with an account, and with a note beside it. -/
def ledgerSchema : Schema :=
  ⟨"Ledger", [⟨"owner", .reference "Account", false⟩, ⟨"note", .scalar .string, true⟩, ⟨attrsKey, .scalar .null, true⟩]⟩

def ledgerEvents : List (Event Json) := [.registered (.schema ledgerSchema), .registered (.ofClass account)]

def ledgerRegistry : Registry Json :=
  ((Registry.empty.register (.ofClass account)).1.register (.schema ledgerSchema)).1

def ledgerInput : Json := .arr [.obj [("note", .str "n"), ("owner", .obj [("name", .str "x"), ("age", .null)])]]

def ledgerDecoded : Decoded Json :=
  let holder : Json := .obj [("name", .str "x"), ("age", .null)]
  .arr [.obj [("note", .str "n"), ("owner", .constructed "Account" holder (.made holder)), (attrsKey, .obj [])]]

theorem ledgerEvents_plain : ∀ event ∈ ledgerEvents, event.Plain :=
  List.forall_mem_cons.mpr ⟨⟨by decide, trivial, trivial, trivial, trivial⟩,
    List.forall_mem_singleton.mpr ⟨by decide, trivial, ⟨trivial, trivial, trivial⟩, trivial⟩⟩

theorem ledgerInput_distinct : ledgerInput.Distinct :=
  ⟨⟨by decide, trivial, ⟨by decide, trivial, trivial, trivial⟩, trivial⟩, trivial⟩

theorem decoded_passes_guard_ledger : ∃ shape,
    ledgerRegistry.resolveTarget (.arrayOf (.named "Ledger")) = .ok shape ∧ shape.is ledgerDecoded = true :=
  decoded_passes_guard (.register (.register .empty rfl) rfl) ledgerEvents_plain ledgerInput_distinct rfl

end Ledger

end Conform
