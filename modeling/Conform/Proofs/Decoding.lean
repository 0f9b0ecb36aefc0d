import Conform.Proofs.Reference

namespace Conform.TypeTree

variable {ω : Type} {book : Book ω} {t : TypeTree ω}

/-- A built-in value that holds no instance is its input. -/
theorem value_eq_ofJson {kind : Stock} {input : Json}
    (plain : (kind.value input : Decoded ω).holdsConstructed = false) :
    (kind.value input : Decoded ω) = .ofJson input := by
  cases kind with
  | date =>
    cases input with
    | str text =>
      cases known : Instant.read? text with
      | some moment =>
        rw [Stock.value, known] at plain
        cases plain
      | none =>
        rw [Stock.value, known]
        rfl
    | _ => rfl
  | latitude | longitude | nonEmptyString => rfl

theorem holdsConstructed_of_get? {fields : Fields (Decoded ω)} (plain : (Decoded.obj fields).holdsConstructed = false)
    {key : String} {d : Decoded ω} (found : Fields.get? key fields = some d) : d.holdsConstructed = false := by
  rw [Decoded.holdsConstructed_obj, List.any_eq_false] at plain
  simpa using plain (key, d) (Fields.mem_of_get? found)

theorem get?_putAttrs_mapWithKey (attrs : Bool) (part : String → Json → Decoded ω) (fields : Fields Json) {key : String}
    (kept : ¬(attrs = true ∧ key = attrsKey)) :
    Fields.get? key (putAttrs attrs (Fields.mapWithKey part fields)) = (Fields.get? key fields).map (part key) := by
  cases attrs with
  | false => exact Fields.get?_mapWithKey part key fields
  | true => rw [get?_putAttrs true fun same => kept ⟨rfl, same⟩, Fields.get?_mapWithKey]

theorem nodup_keys_putAttrs {fields : Fields (Decoded ω)} (nodup : (Fields.keys fields).Nodup) (attrs : Bool) :
    (Fields.keys (putAttrs attrs fields)).Nodup := by
  cases attrs with
  | false => exact nodup
  | true => exact Fields.nodup_keys_insert nodup attrsKey _

/-- What is claimed of a decoded value, and of the input as it was read where nothing was constructed. -/
structure Survives (P : Decoded ω → Prop) (input : Json) (d : Decoded ω) : Prop where
  decoded : P d
  read : d.holdsConstructed = false → P (.ofJson input)

/-- What is claimed so of a part is so of what the other side of an object type leaves of it. -/
theorem Survives.settle {P : Decoded ω → Prop} {value : Json} {part : Decoded ω} (survives : Survives P value part)
    (beside : Bool) : Survives P value (Shape.settle beside value part) := by
  rw [Shape.settle]
  split
  · rename_i lost
    simp only [Bool.and_eq_true, Bool.not_eq_true'] at lost
    have read := survives.read lost.2
    exact ⟨read, fun _ => read⟩
  · exact survives

/-- The fields of an object and what became of each: a required one is there, a declared one is related
by its type, and another one was only read. -/
structure Fieldwise (P : TypeTree ω → Json → Decoded ω → Prop) (props : List (Property (TypeTree ω)))
    (fields : Fields Json) (part : String → Json → Decoded ω) : Prop where
  present : ∀ p ∈ props, Fields.get? p.name fields = none → p.optional = true
  declared : ∀ p ∈ props, ∀ value, Fields.get? p.name fields = some value → P p.type value (part p.name value)
  others : ∀ key ∉ props.map Property.name, ∀ value, part key value = .ofJson value

/-- A relation between types, inputs and decoded values that holds at the leaves and that every way to
decode a composite value hands on. The fields of an object may stand with or without its `attrs`. -/
structure Hereditary (book : Book ω) (P : TypeTree ω → Json → Decoded ω → Prop) : Prop where
  scalar : ∀ {kind input}, kind.holds input = true → P (scalar kind) input (.ofJson input)
  stock : ∀ {kind input}, book kind.name = some (stock kind) → (kind.shape : Shape ω).accepts input = true →
    P (stock kind) input (kind.value input)
  array : ∀ {element items parts}, List.Forall₂ (P element) items parts → P (array element) (.arr items) (.arr parts)
  union : ∀ {members member input d}, (∀ m ∈ members, m.WellFormed book) →
    members.find? (fun m => m.conforms input) = some member → P member input d → P (union members) input d
  record : ∀ {name attrs shown props fields part}, (props.map Property.name).Nodup →
    attrsKey ∉ props.map Property.name → (Fields.keys fields).Nodup → (shown = true → attrs = true) →
    Fieldwise P props fields part →
    P (record name attrs props) (.obj fields) (.obj (putAttrs shown (Fields.mapWithKey part fields)))
  ofClass : ∀ {className inner construct input structural product},
    book className = some (ofClass className inner construct) → inner.WellFormed book → input.Distinct →
    inner.conforms input = true → P inner input structural →
    construct (Shape.handed inner.shape inner.addsAttrs structural) = .ok product →
    P (ofClass className inner construct) input
      (.constructed className (Shape.handed inner.shape inner.addsAttrs structural) product)

namespace Hereditary

variable {P : TypeTree ω → Json → Decoded ω → Prop}

theorem survives_array (hereditary : Hereditary book P) {element : TypeTree ω} {items : List Json}
    {parts : List (Decoded ω)}
    (each : List.Forall₂ (fun item part => Survives (P element item) item part) items parts) :
    Survives (P (.array element) (.arr items)) (.arr items) (.arr parts) where
  decoded := hereditary.array (each.imp fun _ _ survives => survives.decoded)
  read plain := by
    rw [Decoded.holdsConstructed_arr, List.any_eq_false] at plain
    have read : List.Forall₂ (fun item part => P element item (.ofJson item) ∧ True) items parts :=
      Shape.forall₂_imp_of_mem each fun item _ part member survives =>
        ⟨survives.read (by simpa using plain part member), trivial⟩
    have onItems := ((List.forall₂_and_left items parts).mp read).1
    rw [Decoded.ofJson_arr]
    exact hereditary.array (List.forall₂_map_right_iff.mpr (List.forall₂_same.mpr onItems))

/-- A property that survives in the fields survives in the record, where copies beside optional keys
are settled. -/
theorem survives_record (hereditary : Hereditary book P) {name : Option String} {attrs : Bool}
    {props : List (Property (TypeTree ω))} (nodup : (props.map Property.name).Nodup)
    (reserved : attrsKey ∉ props.map Property.name) {fields : Fields Json} (distinct : (Fields.keys fields).Nodup)
    {part : String → Json → Decoded ω}
    (each : Fieldwise (fun type value d => Survives (P type value) value d) props fields part) :
    Survives (P (.record name attrs props) (.obj fields)) (.obj fields)
      (.obj (putAttrs attrs (Fields.mapWithKey part fields))) where
  decoded := hereditary.record nodup reserved distinct id
    ⟨each.present, fun p member value found => (each.declared p member value found).decoded, each.others⟩
  read plain := by
    have keptPlain : ∀ p ∈ props, ∀ value, Fields.get? p.name fields = some value →
        (part p.name value).holdsConstructed = false := by
      intro p member value found
      have different : ¬(attrs = true ∧ p.name = attrsKey) := fun equal => name_ne_attrs reserved member equal.2
      have inParts := get?_putAttrs_mapWithKey attrs part fields different
      rw [found] at inParts
      exact holdsConstructed_of_get? plain inParts
    have read : Fieldwise P props fields fun _ value => .ofJson value :=
      ⟨each.present, fun p member value found =>
        (each.declared p member value found).read (keptPlain p member value found), fun _ _ _ => rfl⟩
    rw [Decoded.ofJson_obj]
    exact @hereditary.record _ _ false _ _ _ nodup reserved distinct nofun read

end Hereditary

/-- What every step of decoding hands on holds of all that a type accepts. -/
theorem WellFormed.survives {P : TypeTree ω → Json → Decoded ω → Prop} (hereditary : Hereditary book P)
    (wellFormed : t.WellFormed book) :
    ∀ {input : Json}, input.Distinct → ∀ {here : Position} {d : Decoded ω}, t.shape.validate input here = .ok d →
      Survives (P t input) input d := by
  induction wellFormed with
  | scalar kind =>
    intro input _ here d accepted
    obtain ⟨fits, rfl⟩ := (Shape.leaf_scalar kind).of_ok accepted
    rw [Scalar.accepts_eq_holds] at fits
    exact ⟨hereditary.scalar fits, fun _ => hereditary.scalar fits⟩
  | @stock kind listed =>
    intro input _ here d accepted
    obtain ⟨fits, rfl⟩ := kind.leaf_shape.of_ok accepted
    exact ⟨hereditary.stock listed fits, fun plain => value_eq_ofJson plain ▸ hereditary.stock listed fits⟩
  | @array element inner ih =>
    intro input distinct here d accepted
    cases input with
    | arr items =>
      obtain ⟨parts, rfl, each⟩ := Shape.validate_array_eq_ok inner.reporting accepted
      exact hereditary.survives_array (Shape.forall₂_imp_of_mem each fun item member part _ ⟨place, validated⟩ =>
        ih (Json.distinct_arr_iff.mp distinct item member) validated)
    | _ => cases accepted
  | @union members each ih =>
    intro input distinct here d accepted
    obtain ⟨member, first, validated⟩ := validate_union_eq_ok each accepted
    have survives := ih member (List.mem_of_find?_eq_some first) distinct validated
    exact ⟨hereditary.union each first survives.decoded, fun plain => hereditary.union each first (survives.read plain)⟩
  | @record name attrs props nodup reserved each ih =>
    intro input distinct here d accepted
    obtain ⟨fields, part, rfl, settled, rfl⟩ := validate_record_eq_putAttrs nodup each distinct accepted
    refine hereditary.survives_record nodup reserved (Json.distinct_obj_iff.mp distinct).1
      ⟨settled.present, fun p member value present => ?_, settled.others⟩
    obtain ⟨place, l, validated, settles⟩ := settled.declared p member value present
    -- Beside optional keys the part may be a plain copy, which survives as well.
    rw [settles]
    exact (ih p member (distinct.of_get? present) validated).settle _
  | @ofClass className inner construct listed known ih =>
    intro input distinct here d accepted
    obtain ⟨structural, product, validated, constructed, rfl⟩ := Shape.validate_ofClass_eq_ok accepted
    have survives := ih distinct validated
    exact ⟨hereditary.ofClass listed known distinct (known.conforms_of_ok validated) survives.decoded constructed,
      fun plain => nomatch plain⟩

end Conform.TypeTree
