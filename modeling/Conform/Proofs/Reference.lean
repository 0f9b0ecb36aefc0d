import Conform.Proofs.Conformance

namespace Conform

variable {ω : Type}

namespace TypeTree

/-- The fields of a decoded object, with an empty `attrs` where its type declares it. -/
def putAttrs (attrs : Bool) (fields : Fields (Decoded ω)) : Fields (Decoded ω) :=
  if attrs then Fields.insert attrsKey (.obj []) fields else fields

theorem get?_putAttrs (attrs : Bool) {key : String} (different : key ≠ attrsKey) (fields : Fields (Decoded ω)) :
    Fields.get? key (putAttrs attrs fields) = Fields.get? key fields := by
  cases attrs with
  | false => rfl
  | true => rw [putAttrs, if_pos rfl, Fields.get?_insert, if_neg different]

mutual

/-- The decoding that a type promises: the input with an empty `attrs` in every object whose type
declares it and with a moment at every timestamp. -/
def reference : TypeTree ω → Json → Decoded ω
  | scalar _, input => .ofJson input
  | stock kind, input => kind.value input
  | array element, .arr items => .arr (items.map (reference element))
  | array _, input => .ofJson input
  | union members, input => referenceFirst members input
  | record _ attrs props, .obj fields => .obj (putAttrs attrs (Fields.mapWithKey (referenceProp props) fields))
  | record _ _ _, input => .ofJson input
  | ofClass _ inner _, input => reference inner input

/-- The first member that the input conforms to decides. -/
def referenceFirst : List (TypeTree ω) → Json → Decoded ω
  | [], input => .ofJson input
  | member :: rest, input => if member.conforms input then reference member input else referenceFirst rest input

def referenceProp : List (Property (TypeTree ω)) → String → Json → Decoded ω
  | [], _, value => .ofJson value
  | ⟨name, type, _⟩ :: rest, key, value => if name = key then reference type value else referenceProp rest key value

end

theorem referenceFirst_eq {members : List (TypeTree ω)} {member : TypeTree ω} {input : Json}
    (first : members.find? (fun m => m.conforms input) = some member) :
    referenceFirst members input = member.reference input := by
  induction members with
  | nil => cases first
  | cons other rest ih =>
    cases fits : other.conforms input with
    | true =>
      simp only [List.find?_cons, fits, Option.some.injEq] at first
      subst first
      rw [referenceFirst, if_pos fits]
    | false =>
      simp only [List.find?_cons, fits] at first
      rw [referenceFirst, fits, if_neg Bool.false_ne_true, ih first]

theorem referenceProp_eq (props : List (Property (TypeTree ω))) (key : String) (value : Json) :
    referenceProp props key value =
      (props.find? fun p => p.name = key).elim (.ofJson value) fun p => p.type.reference value := by
  induction props with
  | nil => rfl
  | cons p rest ih =>
    obtain ⟨name, type, optional⟩ := p
    by_cases same : name = key <;> simp [referenceProp, same, ih]

theorem referenceProp_of_mem {props : List (Property (TypeTree ω))} (nodup : (props.map Property.name).Nodup)
    {p : Property (TypeTree ω)} (member : p ∈ props) (value : Json) :
    referenceProp props p.name value = p.type.reference value := by
  rw [referenceProp_eq, find?_of_mem nodup member, Option.elim_some]

theorem referenceProp_of_not_mem {props : List (Property (TypeTree ω))} {key : String}
    (absent : key ∉ props.map Property.name) (value : Json) : referenceProp props key value = .ofJson value := by
  rw [referenceProp_eq, find?_of_not_mem absent, Option.elim_none]

/-- An input and its type govern what stands at a position inside: a declared property, an element
of an array, and the value of a union by the first member that it conforms to. -/
inductive Governs : TypeTree ω → Json → TypeTree ω → Json → Prop
  | here (t : TypeTree ω) (input : Json) : Governs t input t input
  | item {element t : TypeTree ω} {items : List Json} {item value : Json} (member : item ∈ items) :
      Governs element item t value → Governs (array element) (.arr items) t value
  | member {members : List (TypeTree ω)} {member t : TypeTree ω} {input value : Json}
      (first : members.find? (fun m => m.conforms input) = some member) :
      Governs member input t value → Governs (union members) input t value
  | prop {name : Option String} {attrs : Bool} {props : List (Property (TypeTree ω))} {fields : Fields Json}
      {p : Property (TypeTree ω)} {t : TypeTree ω} {found value : Json} (member : p ∈ props)
      (present : Fields.get? p.name fields = some found) :
      Governs p.type found t value → Governs (record name attrs props) (.obj fields) t value

/-- Beside optional properties, a required property of an object holds something to construct or
nothing that decoding changes. -/
def Intact : TypeTree ω → Json → Prop
  | record _ _ props, .obj fields =>
    ∀ p ∈ props, p.optional = false → (∃ q ∈ props, q.optional = true) →
      ∀ value, Fields.get? p.name fields = some value →
        (p.type.reference value).holdsConstructed = true ∨ p.type.reference value = .ofJson value
  | _, _ => True

def LosesNothing (t : TypeTree ω) (input : Json) : Prop :=
  ∀ s value, Governs t input s value → Intact s value

section Decode

variable {book : Book ω} {t : TypeTree ω}

/-- A union decodes by the first member that the input conforms to. -/
theorem validate_union_eq_ok {members : List (TypeTree ω)} (each : ∀ m ∈ members, m.WellFormed book) {input : Json}
    {here : Position} {d : Decoded ω} (accepted : (union members).shape.validate input here = .ok d) :
    ∃ member, members.find? (fun m => m.conforms input) = some member ∧
      member.shape.validate input here = .ok d := by
  rw [shape, shapes_eq_map, Shape.validate_oneOf, Shape.validate_union_eq_ok_iff] at accepted
  obtain ⟨shapesBefore, s, shapesAfter, split, earlier, validated⟩ := accepted
  obtain ⟨before, rest, rfl, rfl, split'⟩ := List.map_eq_append_iff.mp split
  obtain ⟨member, after, rfl, rfl, rfl⟩ := List.map_eq_cons_iff.mp split'
  have fits := (each member (by simp)).conforms_of_ok validated
  refine ⟨member, List.find?_eq_some_iff_append.mpr ⟨fits, before, after, rfl, fun other inBefore => ?_⟩, validated⟩
  obtain ⟨found, rejected⟩ := earlier other.shape (List.mem_map_of_mem inBefore)
  rw [(each other (List.mem_append_left _ inBefore)).not_conforms_of_invalid rejected]
  rfl

/-- An accepted record is its settled parts with the reserved key put in. -/
theorem validate_record_eq_putAttrs {name : Option String} {attrs : Bool} {props : List (Property (TypeTree ω))}
    (nodup : (props.map Property.name).Nodup) (each : ∀ p ∈ props, p.type.WellFormed book) {input : Json}
    (distinct : input.Distinct) {here : Position} {d : Decoded ω}
    (accepted : (record name attrs props).shape.validate input here = .ok d) :
    ∃ (fields : Fields Json) (part : String → Json → Decoded ω), input = .obj fields ∧ Settled props fields part ∧
      d = .obj (putAttrs attrs (Fields.mapWithKey part fields)) := by
  obtain ⟨fields, part, rfl, settled, built⟩ :=
    validate_record_eq_ok nodup (fun p member => (each p member).reporting) accepted
  refine ⟨fields, part, rfl, settled, ?_⟩
  rw [built (Json.distinct_obj_iff.mp distinct).1]
  cases attrs <;> rfl

/-- Where the reference of a whole is its input so is that of every part that the type governs. -/
theorem Governs.reference_eq_ofJson {s : TypeTree ω} {input value : Json} (governs : Governs t input s value)
    (wellFormed : t.WellFormed book) (same : t.reference input = .ofJson input) :
    s.reference value = .ofJson value := by
  induction governs with
  | here => exact same
  | item member _ ih =>
    cases wellFormed with
    | array inner =>
      rw [reference, Decoded.ofJson_arr, Decoded.arr.injEq] at same
      exact ih inner (List.map_inj_left.mp same _ member)
  | member first _ ih =>
    cases wellFormed with
    | union each =>
      rw [reference, referenceFirst_eq first] at same
      exact ih (each _ (List.mem_of_find?_eq_some first)) same
  | @prop name attrs props fields p s found value member present _ ih =>
    cases wellFormed with
    | record nodup reserved each =>
      have different := name_ne_attrs reserved member
      rw [reference, Decoded.ofJson_obj, Decoded.obj.injEq] at same
      have inField := congrArg (Fields.get? p.name) same
      rw [get?_putAttrs attrs different, Fields.get?_mapWithKey, Fields.get?_mapWithKey, present, Option.map_some,
        Option.map_some, referenceProp_of_mem nodup member, Option.some.injEq] at inField
      exact ih (each p member) inField

/-- A record is decoded as its reference says exactly when its declared parts are. -/
theorem record_eq_reference_iff {name : Option String} {attrs : Bool} {props : List (Property (TypeTree ω))}
    (nodup : (props.map Property.name).Nodup) (reserved : attrsKey ∉ props.map Property.name) {fields : Fields Json}
    (distinct : (Fields.keys fields).Nodup) {part : String → Json → Decoded ω} (settled : Settled props fields part) :
    .obj (putAttrs attrs (Fields.mapWithKey part fields)) = (record name attrs props).reference (.obj fields) ↔
      ∀ p ∈ props, ∀ value, Fields.get? p.name fields = some value → part p.name value = p.type.reference value := by
  rw [reference, Decoded.obj.injEq]
  constructor
  · intro same p member value present
    have different := name_ne_attrs reserved member
    have inField := congrArg (Fields.get? p.name) same
    rw [get?_putAttrs attrs different, get?_putAttrs attrs different, Fields.get?_mapWithKey, Fields.get?_mapWithKey,
      present, Option.map_some, Option.map_some, Option.some.injEq, referenceProp_of_mem nodup member] at inField
    exact inField
  · intro agree
    refine congrArg (putAttrs attrs) (Fields.mapWithKey_congr fun entry inFields => ?_)
    by_cases declared : entry.1 ∈ props.map Property.name
    · obtain ⟨p, member, same⟩ := List.mem_map.mp declared
      rw [← same, referenceProp_of_mem nodup member]
      exact agree p member entry.2 ((Fields.get?_eq_some_iff distinct).mpr (same ▸ inFields))
    · rw [settled.others entry.1 declared, referenceProp_of_not_mem declared]

/-- Where the reference is the input there is nothing to lose. -/
theorem intact_of_reference_eq_ofJson (wellFormed : t.WellFormed book) {input : Json}
    (same : t.reference input = .ofJson input) : Intact t input := by
  cases wellFormed with
  | @record name attrs props nodup reserved each =>
    cases input with
    | obj fields =>
      intro p member _ _ value present
      exact Or.inr ((Governs.prop member present (.here _ _)).reference_eq_ofJson (.record nodup reserved each) same)
    | _ => trivial
  | scalar | stock | array | union | ofClass => trivial

theorem Governs.wellFormed {s : TypeTree ω} {input value : Json} (governs : Governs t input s value)
    (wellFormed : t.WellFormed book) : s.WellFormed book := by
  induction governs with
  | here => exact wellFormed
  | item _ _ ih => cases wellFormed with
    | array inner => exact ih inner
  | member first _ ih => cases wellFormed with
    | union each => exact ih (each _ (List.mem_of_find?_eq_some first))
  | prop member _ _ ih => cases wellFormed with
    | record _ _ each => exact ih (each _ member)

/-- Where decoding an object gives what its type promises, each property keeps what it promises. -/
theorem settled_of_reference {name : Option String} {attrs : Bool} {props : List (Property (TypeTree ω))}
    (nodup : (props.map Property.name).Nodup) (reserved : attrsKey ∉ props.map Property.name)
    (each : ∀ p ∈ props, p.type.WellFormed book) {fields : Fields Json} (distinct : (Json.obj fields).Distinct)
    {here : Position} (accepted : (record name attrs props).shape.validate (.obj fields) here =
      .ok ((record name attrs props).reference (.obj fields)))
    {p : Property (TypeTree ω)} (member : p ∈ props) {value : Json} (present : Fields.get? p.name fields = some value) :
    ∃ place l, p.type.shape.validate value place = .ok l ∧
      p.type.reference value = Shape.settle (!p.optional && props.any (·.optional)) value l := by
  obtain ⟨_, part, same, settled, equal⟩ := validate_record_eq_putAttrs nodup each distinct accepted
  cases same
  have nodupFields := (Json.distinct_obj_iff.mp distinct).1
  have agree := (record_eq_reference_iff nodup reserved nodupFields settled).mp equal.symm
  obtain ⟨place, l, validated, kept⟩ := settled.declared p member value present
  rw [agree p member value present] at kept
  exact ⟨place, l, validated, kept⟩

/-- A record that is decoded as its reference says has lost none of its parts. -/
theorem intact_record {name : Option String} {attrs : Bool} {props : List (Property (TypeTree ω))}
    (nodup : (props.map Property.name).Nodup) (reserved : attrsKey ∉ props.map Property.name)
    (each : ∀ p ∈ props, p.type.WellFormed book) {fields : Fields Json} (distinct : (Json.obj fields).Distinct)
    {here : Position} (accepted : (record name attrs props).shape.validate (.obj fields) here =
      .ok ((record name attrs props).reference (.obj fields))) : Intact (record name attrs props) (.obj fields) := by
  intro p member required mixed value present
  obtain ⟨place, l, _, kept⟩ := settled_of_reference nodup reserved each distinct accepted member present
  have beside : (!p.optional && props.any (·.optional)) = true := by
    rw [required, List.any_eq_true.mpr mixed]
    rfl
  rw [beside, Shape.settle] at kept
  cases holds : l.holdsConstructed with
  | true =>
    simp only [holds, Bool.not_true, Bool.and_false, Bool.false_eq_true, if_false] at kept
    exact Or.inl (kept ▸ holds)
  | false =>
    simp only [holds, Bool.not_false, Bool.and_true, if_true] at kept
    exact Or.inr kept

/-- Where decoding gives what the type promises, nothing is lost at any position. -/
theorem Governs.intact {s : TypeTree ω} {input value : Json} (governs : Governs t input s value)
    (wellFormed : t.WellFormed book) (distinct : input.Distinct) {here : Position}
    (accepted : t.shape.validate input here = .ok (t.reference input)) : Intact s value := by
  -- Along the way from the whole to the part; each step hands on that the reference was decoded.
  induction governs generalizing here with
  | here t input =>
    cases wellFormed with
    | record nodup reserved each =>
      cases input with
      | obj fields => exact intact_record nodup reserved each distinct accepted
      | _ => trivial
    | scalar | stock | array | union | ofClass => trivial
  | @item element s items item value member _ ih =>
    cases wellFormed with
    | array inner =>
      obtain ⟨parts, equal, each⟩ := Shape.validate_array_eq_ok inner.reporting accepted
      rw [reference, Decoded.arr.injEq] at equal
      subst equal
      rw [List.forall₂_map_right_iff, List.forall₂_same] at each
      obtain ⟨place, validated⟩ := each item member
      exact ih inner (Json.distinct_arr_iff.mp distinct item member) validated
  | @member members member s input value first _ ih =>
    cases wellFormed with
    | union each =>
      obtain ⟨other, first', validated⟩ := validate_union_eq_ok each accepted
      cases first.symm.trans first'
      rw [reference, referenceFirst_eq first] at validated
      exact ih (each _ (List.mem_of_find?_eq_some first)) distinct validated
  | @prop name attrs props fields p s found value member present inside ih =>
    cases wellFormed with
    | record nodup reserved each =>
      obtain ⟨place, l, validated, kept⟩ := settled_of_reference nodup reserved each distinct accepted member present
      have wellFormed := each p member
      rw [Shape.settle] at kept
      -- Either the part is a plain copy, with nothing to lose inside it, or it was decoded to its reference.
      split at kept
      · have plain := inside.reference_eq_ofJson wellFormed kept
        exact intact_of_reference_eq_ofJson (inside.wellFormed wellFormed) plain
      · rw [← kept] at validated
        exact ih wellFormed (distinct.of_get? present) validated

/-- Where nothing is lost at any position, decoding gives what a type without classes promises. -/
theorem WellFormed.eq_reference (classless : ∀ name className inner construct,
      book name ≠ some (.ofClass className inner construct)) (wellFormed : t.WellFormed book) :
    ∀ {input : Json}, input.Distinct → t.LosesNothing input → ∀ {here : Position} {d : Decoded ω},
      t.shape.validate input here = .ok d → d = t.reference input := by
  induction wellFormed with
  | scalar kind => exact fun _ _ _ _ accepted => ((Shape.leaf_scalar kind).of_ok accepted).2
  | @stock kind _ => exact fun _ _ _ _ accepted => (kind.leaf_shape.of_ok accepted).2
  | @array element inner ih =>
    intro input distinct keeps here d accepted
    cases input with
    | arr items =>
      obtain ⟨parts, rfl, each⟩ := Shape.validate_array_eq_ok inner.reporting accepted
      -- What governs a part inside an item governs it inside the list.
      have agree : List.Forall₂ (fun item part => element.reference item = part) items parts := by
        refine Shape.forall₂_imp_of_mem each fun item member part _ ⟨place, validated⟩ => ?_
        have distinctItem := Json.distinct_arr_iff.mp distinct item member
        have keepsInside : element.LosesNothing item := fun s value governs => keeps s value (.item member governs)
        exact (ih distinctItem keepsInside validated).symm
      rw [← List.forall₂_map_left_iff, List.forall₂_eq_eq_eq] at agree
      rw [reference, agree]
    | _ => cases accepted
  | @union members each ih =>
    intro input distinct keeps here d accepted
    obtain ⟨member, first, validated⟩ := validate_union_eq_ok each accepted
    rw [reference, referenceFirst_eq first]
    have keepsInside : member.LosesNothing input := fun s value governs => keeps s value (.member first governs)
    exact ih member (List.mem_of_find?_eq_some first) distinct keepsInside validated
  | @record name attrs props nodup reserved each ih =>
    intro input distinct keeps here d accepted
    obtain ⟨fields, part, rfl, settled, rfl⟩ := validate_record_eq_putAttrs nodup each distinct accepted
    have nodupFields := (Json.distinct_obj_iff.mp distinct).1
    refine (record_eq_reference_iff nodup reserved nodupFields settled).mpr ?_
    intro p member value present
    obtain ⟨place, l, validated, kept⟩ := settled.declared p member value present
    have keepsInside : p.type.LosesNothing value :=
      fun s inner governs => keeps s inner (.prop member present governs)
    have decoded : l = p.type.reference value := ih p member (distinct.of_get? present) keepsInside validated
    rw [kept, decoded, Shape.settle]
    split
    · rename_i lost
      simp only [Bool.and_eq_true, Bool.not_eq_true', List.any_eq_true] at lost
      obtain ⟨⟨required, mixed⟩, holds⟩ := lost
      -- A settled part is a plain copy only beside optional keys, and there nothing is lost by assumption.
      rcases keeps _ _ (.here _ _) p member required mixed value present with constructed | same
      · rw [holds] at constructed
        cases constructed
      · exact same.symm
    · rfl
  | ofClass listed _ _ => exact absurd listed (classless _ _ _ _)

end Decode

end TypeTree

/-- Decoding gives what the type of a name promises exactly where nothing is lost. -/
theorem decode_eq_reference_iff {r : Registry ω} {events : List (Event ω)} (reached : r.Reached events)
    (plain : ∀ event ∈ events, event.Plain) (classless : ∀ c, .registered (.ofClass c) ∉ events) {name : String}
    {input : Json} (distinct : input.Distinct) {d : Decoded ω}
    (accepted : (Decoder.mk r).decode (.named name) input = .ok (.ok d)) :
    ∃ tree, bookOf events name = some tree ∧ (d = tree.reference input ↔ tree.LosesNothing input) := by
  obtain ⟨tree, listed, wellFormed, validated⟩ := (reached.described plain).of_decode accepted
  refine ⟨tree, listed, ?_, ?_⟩
  · rintro rfl s value governs
    exact governs.intact wellFormed distinct validated
  · intro keeps
    refine wellFormed.eq_reference (fun key className inner construct known => ?_) distinct keeps validated
    obtain ⟨c, member, _⟩ := bookOf_ofClass known
    exact classless c member

section Tagged

/-- A schema that declares `attrs`, and one that requires it beside an optional property. -/
def tagSchema : Schema := ⟨"Tag", [⟨"name", .scalar .string, false⟩, ⟨attrsKey, .scalar .string, false⟩]⟩

def taggedSchema : Schema := ⟨"Tagged", [⟨"tag", .reference "Tag", false⟩, ⟨"note", .scalar .string, true⟩]⟩

def taggedEvents : List (Event Empty) := [.registered (.schema taggedSchema), .registered (.schema tagSchema)]

def taggedRegistry : Registry Empty :=
  ((Registry.empty.register (.schema tagSchema)).1.register (.schema taggedSchema)).1

def taggedInput : Json := .obj [("tag", .obj [("name", .str "x"), (attrsKey, .bool true)])]

theorem taggedRegistry_reached : taggedRegistry.Reached taggedEvents := .register (.register .empty rfl) rfl

theorem taggedEvents_plain : ∀ event ∈ taggedEvents, event.Plain :=
  List.forall_mem_cons.mpr ⟨⟨by decide, trivial, trivial, trivial⟩,
    List.forall_mem_singleton.mpr ⟨by decide, trivial, trivial, trivial⟩⟩

theorem taggedEvents_classless : ∀ c, .registered (.ofClass c) ∉ taggedEvents := by
  simp [taggedEvents]

theorem taggedInput_distinct : taggedInput.Distinct :=
  ⟨by decide, ⟨by decide, trivial, trivial, trivial⟩, trivial⟩

theorem decode_eq_reference_iff_tagged : ∃ tree, bookOf taggedEvents "Tagged" = some tree ∧
    (.ofJson taggedInput = tree.reference taggedInput ↔ tree.LosesNothing taggedInput) :=
  decode_eq_reference_iff taggedRegistry_reached taggedEvents_plain taggedEvents_classless
    taggedInput_distinct rfl

/-- What an input carries as `attrs` reaches the result below a required property beside an optional one. -/
theorem decode_ne_reference_tagged : taggedRegistry.Reached taggedEvents ∧ (∀ event ∈ taggedEvents, event.Plain) ∧
    (∀ c, .registered (.ofClass c) ∉ taggedEvents) ∧ taggedInput.Distinct ∧
    ∃ tree, bookOf taggedEvents "Tagged" = some tree ∧
      (Decoder.mk taggedRegistry).decode (.named "Tagged") taggedInput = .ok (.ok (.ofJson taggedInput)) ∧
      tree.reference taggedInput = .obj [("tag", .obj [("name", .str "x"), (attrsKey, .obj [])])] ∧
      .ofJson taggedInput ≠ tree.reference taggedInput := by
  refine ⟨taggedRegistry_reached, taggedEvents_plain, taggedEvents_classless, taggedInput_distinct, _, rfl, rfl, rfl,
    ?_⟩
  intro same
  cases same

end Tagged

end Conform
