import Mathlib.Data.List.Find
import Conform.Proofs.Stripped

namespace Conform

variable {ω : Type}

namespace TypeTree

variable {book : Book ω} {t : TypeTree ω}

section Normal

variable {name : Option String} {attrs : Bool} {props : List (Property (TypeTree ω))} {fields : Fields Json}

/-- An object that nothing is taken from: there is no `attrs` where its type declares it, and each
declared value is left as it is. -/
theorem normalize_record_obj_eq_self_iff (distinct : (Fields.keys fields).Nodup) :
    (record name attrs props).normalize (.obj fields) = .obj fields ↔
      (attrs = true → attrsKey ∉ Fields.keys fields) ∧
        ∀ key value, Fields.get? key fields = some value → normalizeProp props key value = value := by
  have distinctNormal := Fields.nodup_keys_mapWithKey distinct (normalizeProp props)
  rw [normalize, Json.obj.injEq]
  constructor
  · intro fixed
    have entry (key : String) : (if attrs = true ∧ key = attrsKey then none else
        (Fields.get? key fields).map (normalizeProp props key)) = Fields.get? key fields := by
      rw [← Fields.get?_mapWithKey, ← get?_dropAttrs distinctNormal, fixed]
    have absent : attrs = true → Fields.get? attrsKey fields = none := fun declares => by
      rw [← entry, if_pos ⟨declares, rfl⟩]
    refine ⟨fun declares => Fields.get?_eq_none_iff.mp (absent declares), fun key value found => ?_⟩
    have kept : ¬(attrs = true ∧ key = attrsKey) := by
      rintro ⟨declares, rfl⟩
      rw [absent declares] at found
      cases found
    simpa only [if_neg kept, found, Option.map_some, Option.some.injEq] using entry key
  · rintro ⟨absent, each⟩
    have same : Fields.mapWithKey (normalizeProp props) fields = fields :=
      Fields.mapWithKey_eq_self fun entry member =>
        each entry.1 entry.2 ((Fields.get?_eq_some_iff distinct).mpr member)
    rw [same, dropAttrs]
    cases attrs with
    | false => rfl
    | true => exact Fields.erase_of_not_mem (absent rfl)

/-- What equals the normal form of an object has the fields of the object, each in its normal form, but for the
`attrs` that its type declares. -/
theorem fields_of_normal_eq (distinct : (Fields.keys fields).Nodup) {y : Json}
    (same : y.normal = ((record name attrs props).normalize (.obj fields)).normal) :
    ∃ others : Fields Json, y = .obj others ∧ (Fields.keys others).Nodup ∧ ∀ key,
      (Fields.get? key others).map Json.normal = if attrs = true ∧ key = attrsKey then none
        else (Fields.get? key fields).map fun old => (normalizeProp props key old).normal := by
  have distinctNormal := Fields.nodup_keys_mapWithKey distinct (normalizeProp props)
  have distinctDropped := nodup_keys_dropAttrs distinctNormal attrs
  rw [normalize] at same
  obtain ⟨others, rfl, keysPerm⟩ := Json.obj_of_normal_eq same
  have distinctOthers := keysPerm.nodup_iff.mpr distinctDropped
  rw [Json.normal_obj_eq_iff distinctOthers distinctDropped] at same
  refine ⟨others, rfl, distinctOthers, fun key => (same key).trans ?_⟩
  rw [get?_dropAttrs distinctNormal, Fields.get?_mapWithKey, apply_ite (Option.map Json.normal), Option.map_map]
  rfl

end Normal

/-- What decoding and encoding made of an input is left as it is: the types see the same members of
their unions, as these conform to the one exactly where they conform to the other. -/
theorem WellFormed.normalize_eq_self (timeless : Timeless book) (wellFormed : t.WellFormed book) :
    ∀ {x y : Json}, x.Distinct → t.conforms x = true → y.normal = (t.normalize x).normal → t.normalize y = y := by
  induction wellFormed with
  | scalar kind => exact fun _ _ _ => rfl
  | @stock kind listed =>
    cases kind with
    -- A date is written anew, so it is left out here.
    | date => exact absurd listed timeless
    | latitude | longitude | nonEmptyString => exact fun _ _ _ => rfl
  | @array element inner ih =>
    intro x y distinct fits same
    cases x with
    | arr items =>
      cases y with
      | arr others =>
        rw [normalize, Json.normal_arr_eq_iff, List.map_map] at same
        have each : ∀ other ∈ others, element.normalize other = other := by
          intro other member
          have known := same ▸ List.mem_map_of_mem member
          obtain ⟨item, inItems, origin⟩ := List.mem_map.mp known
          exact ih (Json.distinct_arr_iff.mp distinct item inItems) (List.all_eq_true.mp fits item inItems) origin.symm
        rw [normalize, List.map_congr_left each, List.map_id']
      | _ => cases same
    | _ => cases fits
  | @union members each ih =>
    intro x y distinct fits same
    obtain ⟨member, inMembers, fitsMember⟩ := someConforms_iff.mp fits
    obtain ⟨chosen, first⟩ := Option.isSome_iff_exists.mp
      (List.find?_isSome.mpr ⟨member, inMembers, fitsMember⟩ : (members.find? fun m => m.conforms x).isSome = true)
    -- The same member is the first to conform to both, so the induction goes on inside it.
    have agree : ∀ m ∈ members, m.conforms y = m.conforms x := fun m inMembers =>
      (each m inMembers).conforms_eq timeless (.union each) distinct same
    have again : members.find? (fun m => m.conforms y) = some chosen := (List.find?_congr agree).trans first
    rw [normalize, normalizeFirst_eq first] at same
    rw [normalize, normalizeFirst_eq again]
    exact ih chosen (List.mem_of_find?_eq_some first) distinct (by simpa using List.find?_some first) same
  | @record name attrs props nodup reserved each ih =>
    intro x y distinct fits same
    cases x with
    | obj fields =>
      obtain ⟨others, rfl, nodupOthers, origin⟩ := fields_of_normal_eq (Json.distinct_obj_iff.mp distinct).1 same
      refine (normalize_record_obj_eq_self_iff nodupOthers).mpr ⟨fun declares => ?_, fun key value found => ?_⟩
      · exact Fields.get?_eq_none_iff.mp (by simpa [declares] using origin attrsKey)
      -- A declared key goes on inside its own type; any other one is not normalized at all.
      by_cases known : key ∈ props.map Property.name
      · have kept : ¬(attrs = true ∧ key = attrsKey) := fun taken => reserved (taken.2 ▸ known)
        obtain ⟨p, member, rfl⟩ := List.mem_map.mp known
        have here := origin p.name
        rw [found, if_neg kept] at here
        obtain ⟨old, inFields, equal⟩ := Option.map_eq_some_iff.mp here.symm
        rw [normalizeProp_of_mem nodup member] at equal ⊢
        have fitsHere := (propsConform_iff.mp fits p member).2 old inFields
        exact ih p member (distinct.of_get? inFields) fitsHere equal.symm
      · exact normalizeProp_of_not_mem known value
    | _ => cases fits
  | ofClass _ _ ih => exact fun distinct fits same => ih distinct fits same

section Record

variable {name : Option String} {attrs : Bool} {props : List (Property (TypeTree ω))}

theorem encodeField_of_prop (nodup : (props.map Property.name).Nodup) {p : Property (TypeTree ω)} (member : p ∈ props)
    (optional : Bool) (d : Decoded ω) : Shape.encodeField (propShapes optional props) p.name d =
      if p.optional = optional then p.type.shape.encode d else d.toJson := by
  split
  · rename_i same
    have keysNodup := nodup.sublist (keys_propShapes_sublist optional props)
    exact Shape.encodeField_of_mem keysNodup (mem_propShapes.mpr ⟨p, member, same, rfl⟩)
  · rename_i other
    exact Shape.encodeField_of_not_mem (not_mem_keys_propShapes nodup member other)

/-- How the fields of an object type are encoded. -/
def writeField (props : List (Property (TypeTree ω))) : String → Decoded ω → Json :=
  Shape.encodeParts (propShapes false props) (propShapes true props)

/-- A declared part is written as its own type encodes it. -/
theorem writeField_of_mem (nodup : (props.map Property.name).Nodup) {p : Property (TypeTree ω)} (member : p ∈ props)
    {value : Json} {d : Decoded ω} (encodes : p.type.shape.encode d = value)
    (shown : d.toJson.normal = value.normal → d.toJson = value) : writeField props p.name d = value := by
  have same : (writeField props p.name d).normal = value.normal := by
    rw [writeField, Shape.encodeParts_normal, encodeBeside_of_mem nodup member, encodes]
  have origin : writeField props p.name d = d.toJson ∨ writeField props p.name d = p.type.shape.encode d := by
    have bySide := Shape.encodeParts_cases (propShapes false props) (propShapes true props) p.name d
    rw [encodeField_of_prop nodup member, encodeField_of_prop nodup member] at bySide
    rcases bySide with plain | required | optional
    · exact Or.inl plain
    · split at required
      · exact Or.inr required
      · exact Or.inl required
    · split at optional
      · exact Or.inr optional
      · exact Or.inl optional
  rcases origin with plain | encoded
  · rw [plain] at same ⊢
    exact shown same
  · rw [encoded, encodes]

theorem writeField_of_not_mem {key : String} (undeclared : key ∉ props.map Property.name) (d : Decoded ω) :
    writeField props key d = d.toJson := by
  have absent (optional : Bool) : key ∉ Fields.keys (propShapes optional props) :=
    fun known => undeclared ((keys_propShapes_sublist optional props).subset known)
  exact Shape.encodeParts_of_not_mem (absent false) (absent true)

/-- An `attrs` that was put to the end of the fields is taken from there. -/
theorem encode_putAttrs {shown : Bool} {fields : Fields Json} {part : String → Json → Decoded ω}
    (distinct : (Fields.keys fields).Nodup) (declares : shown = true → attrs = true)
    (absent : attrs = true → attrsKey ∉ Fields.keys fields) :
    (record name attrs props).shape.encode (.obj (putAttrs shown (Fields.mapWithKey part fields))) =
      .obj (Fields.mapWithKey (writeField props) (Fields.mapWithKey part fields)) := by
  have distinctParts := nodup_keys_putAttrs (Fields.nodup_keys_mapWithKey distinct part) shown
  rw [shape, Shape.encode_ofProps_eq distinctParts, ← writeField]
  cases attrs with
  | false =>
    cases shown with
    | false => rfl
    | true => cases declares rfl
  | true =>
    have absent : attrsKey ∉ Fields.keys (Fields.mapWithKey (writeField props) (Fields.mapWithKey part fields)) := by
      rw [Fields.keys_mapWithKey, Fields.keys_mapWithKey]
      exact absent rfl
    rw [if_pos rfl]
    cases shown with
    | false => exact congrArg Json.obj (Fields.swapErase_of_not_mem absent)
    | true =>
      rw [putAttrs, if_pos rfl, Fields.mapWithKey_insert, Fields.swapErase_insert_of_not_mem absent]

end Record

/-- Where an input is left as it is, the decoded value is encoded to that input, key by key in its order,
and shows it or something that is not equal to it. -/
structure Repeats (book : Book ω) (t : TypeTree ω) (input : Json) (d : Decoded ω) : Prop where
  faithful : Faithful book t input d
  encodes : t.normalize input = input → t.shape.encode d = input
  shown : t.normalize input = input → d.toJson.normal = input.normal → d.toJson = input

namespace Repeats

/-- A built-in type repeats: an input in its normal form is encoded as it was written. -/
theorem stock {kind : Stock} (listed : book kind.name = some (.stock kind)) {input : Json}
    (accepted : (kind.shape : Shape ω).accepts input = true) : Repeats book (stock kind) input (kind.value input) := by
  have faithful := faithful_stock listed accepted
  cases kind with
  | date =>
    obtain ⟨text, moment, rfl, known⟩ := exists_moment_of_accepts accepted
    have value : (Stock.date.value (.str text) : Decoded ω) = .constructed "Date" (.str text) (.instant moment) := by
      rw [Stock.value, known]
    refine ⟨faithful, fun fixed => ?_, fun _ _ => by rw [value, Decoded.toJson]⟩
    rw [normalize, Stock.normalize, known] at fixed
    rw [value]
    exact fixed
  | latitude | longitude | nonEmptyString =>
    exact ⟨faithful, fun _ => Decoded.toJson_ofJson input, fun _ _ => Decoded.toJson_ofJson input⟩

theorem array {element : TypeTree ω} {items : List Json} {parts : List (Decoded ω)}
    (each : List.Forall₂ (Repeats book element) items parts) :
    Repeats book (array element) (.arr items) (.arr parts) where
  faithful := .array (each.imp fun _ _ repeats => repeats.faithful)
  encodes fixed := by
    rw [normalize, Json.arr.injEq] at fixed
    rw [shape, Shape.encode]
    congr 1
    induction each with
    | nil => rfl
    | cons first _ ih =>
      obtain ⟨here, later⟩ := List.cons.inj fixed
      rw [List.map_cons, first.encodes here, ih later]
  shown fixed same := by
    rw [normalize, Json.arr.injEq] at fixed
    rw [Decoded.toJson_arr] at same ⊢
    rw [Json.normal_arr_eq_iff] at same
    congr 1
    induction each with
    | nil => rfl
    | cons first _ ih =>
      obtain ⟨here, later⟩ := List.cons.inj fixed
      obtain ⟨sameHere, sameLater⟩ := List.cons.inj same
      rw [List.map_cons, first.shown here sameHere, ih later sameLater]

/-- Each field of an object that is left as it is repeats its value, a declared one by its type. -/
theorem writeField_of_fieldwise {props : List (Property (TypeTree ω))} (nodup : (props.map Property.name).Nodup)
    {fields : Fields Json} {part : String → Json → Decoded ω} (each : Fieldwise (Repeats book) props fields part)
    {key : String} {value : Json} (found : Fields.get? key fields = some value)
    (fixed : normalizeProp props key value = value) :
    writeField props key (part key value) = value ∧
      ((part key value).toJson.normal = value.normal → (part key value).toJson = value) := by
  by_cases known : key ∈ props.map Property.name
  · obtain ⟨p, member, rfl⟩ := List.mem_map.mp known
    rw [normalizeProp_of_mem nodup member] at fixed
    have repeats := each.declared p member value found
    exact ⟨writeField_of_mem nodup member (repeats.encodes fixed) (repeats.shown fixed), repeats.shown fixed⟩
  · rw [writeField_of_not_mem known, each.others key known, Decoded.toJson_ofJson]
    exact ⟨rfl, fun _ => rfl⟩

/-- A record whose fields repeat gives back, key by key and in its order, an object that it
normalizes to itself. -/
theorem record {name : Option String} {attrs shown : Bool} {props : List (Property (TypeTree ω))}
    (nodup : (props.map Property.name).Nodup) (reserved : attrsKey ∉ props.map Property.name) {fields : Fields Json}
    (distinct : (Fields.keys fields).Nodup) (declares : shown = true → attrs = true)
    {part : String → Json → Decoded ω} (each : Fieldwise (Repeats book) props fields part) :
    Repeats book (record name attrs props) (.obj fields) (.obj (putAttrs shown (Fields.mapWithKey part fields))) where
  faithful := .record nodup reserved distinct declares ⟨each.present,
    fun p member value found => (each.declared p member value found).faithful, each.others⟩
  encodes fixed := by
    obtain ⟨absent, kept⟩ := (normalize_record_obj_eq_self_iff distinct).mp fixed
    rw [encode_putAttrs distinct declares absent, Fields.mapWithKey_mapWithKey]
    refine congrArg Json.obj (Fields.mapWithKey_eq_self fun entry inFields => ?_)
    have found := (Fields.get?_eq_some_iff distinct).mpr inFields
    exact (writeField_of_fieldwise nodup each found (kept _ _ found)).1
  shown fixed same := by
    obtain ⟨absent, kept⟩ := (normalize_record_obj_eq_self_iff distinct).mp fixed
    have distinctParts := nodup_keys_putAttrs (Fields.nodup_keys_mapWithKey distinct part) shown
    rw [Decoded.toJson_obj] at same ⊢
    rw [Json.normal_obj_eq_iff (Fields.nodup_keys_mapWithKey distinctParts _) distinct] at same
    cases shown with
    | true =>
      -- The `attrs` that was put there is not in the input.
      have extra := same attrsKey
      rw [putAttrs, if_pos rfl, Fields.get?_mapWithKey, Fields.get?_insert, if_pos rfl,
        Fields.get?_eq_none_iff.mpr (absent (declares rfl))] at extra
      cases extra
    | false =>
      rw [putAttrs, if_neg Bool.false_ne_true, Fields.mapWithKey_mapWithKey] at same ⊢
      refine congrArg Json.obj (Fields.mapWithKey_eq_self fun entry inFields => ?_)
      have found := (Fields.get?_eq_some_iff distinct).mpr inFields
      have sameValue := same entry.1
      rw [Fields.get?_mapWithKey, found, Option.map_some, Option.map_some, Option.map_some, Option.some.injEq]
        at sameValue
      exact (writeField_of_fieldwise nodup each found (kept _ _ found)).2 sameValue

/-- An instance is encoded from the value that it was built from. -/
theorem ofClass (apart : KeepsInstantsApart book) {className : String} {inner : TypeTree ω}
    {construct : Json → Except String (Product ω)}
    (listed : book className = some (.ofClass className inner construct)) (wellFormed : inner.WellFormed book)
    {input : Json} (distinct : input.Distinct) (fits : inner.conforms input = true) {structural : Decoded ω}
    (repeats : Repeats book inner input structural) {product : Product ω}
    (constructed : construct (Shape.handed inner.shape inner.addsAttrs structural) = .ok product) :
    Repeats book (ofClass className inner construct) input
      (.constructed className (Shape.handed inner.shape inner.addsAttrs structural) product) where
  faithful := .ofClass apart listed wellFormed distinct fits repeats.faithful constructed
  encodes fixed := by
    rw [normalize] at fixed
    have encoded := repeats.encodes fixed
    rw [shape, Shape.encode, if_pos rfl, Shape.handed, encoded]
    cases adds : inner.addsAttrs with
    | false => rfl
    | true =>
      obtain ⟨fields, normal, absent⟩ := wellFormed.normalize_of_addsAttrs adds distinct fits
      exact withoutAttrs_addAttrs absent (congrArg Json.normal (fixed.symm.trans normal))
  shown fixed same := by
    rw [normalize] at fixed
    rw [Decoded.toJson, Shape.handed, repeats.encodes fixed] at same ⊢
    cases adds : inner.addsAttrs with
    | false => rfl
    | true =>
      obtain ⟨fields, normal, absent⟩ := wellFormed.normalize_of_addsAttrs adds distinct fits
      rw [fixed] at normal
      subst normal
      rw [adds, if_pos rfl, Shape.addAttrs] at same
      obtain ⟨_, equal, perm⟩ := Json.obj_of_normal_eq same
      cases equal
      exact absurd (perm.mem_iff.mp (Fields.get?_isSome_iff.mp (by rw [Fields.get?_insert_self]; rfl))) absent

end Repeats

theorem hereditary_repeats (apart : KeepsInstantsApart book) : Hereditary book (Repeats book) where
  scalar fits := ⟨faithful_scalar fits, fun _ => Decoded.toJson_ofJson _, fun _ _ => Decoded.toJson_ofJson _⟩
  stock listed accepted := .stock listed accepted
  array each := .array each
  union each first repeats := by
    have faithful := repeats.faithful
    refine ⟨.union each first faithful, fun fixed => ?_, fun fixed => ?_⟩
    · rw [normalize, normalizeFirst_eq first] at fixed
      rw [encode_union_of_certifies each first faithful.certifies faithful.belongs, repeats.encodes fixed]
    · rw [normalize, normalizeFirst_eq first] at fixed
      exact repeats.shown fixed
  record nodup reserved distinct declares each := .record nodup reserved distinct declares each
  ofClass listed wellFormed distinct fits repeats := .ofClass apart listed wellFormed distinct fits repeats

/-- What decoding and encoding made of an input is accepted in its turn, and encoded to itself. -/
theorem WellFormed.encode_again (wellFormed : t.WellFormed book) (timeless : Timeless book)
    (never : book.NeverRefuses) {input : Json} (distinct : input.Distinct) {here : Position} {d : Decoded ω}
    (accepted : t.shape.validate input here = .ok d) (there : Position) :
    ∃ again, t.shape.validate (t.shape.encode d) there = .ok again ∧ t.shape.encode again = t.shape.encode d := by
  have repeats := @hereditary_repeats ω book fun _ _ _ _ _ _ _ _ => Or.inr timeless
  have fits := wellFormed.conforms_of_ok accepted
  have same := (wellFormed.survives repeats distinct accepted).decoded.faithful.encodes
  have distinctEncoded : (t.shape.encode d).Distinct :=
    Json.distinct_normal.mp (same ▸ Json.distinct_normal.mpr (wellFormed.distinct_normalize distinct))
  have fitsEncoded := (wellFormed.conforms_eq timeless wellFormed distinct same).trans fits
  obtain ⟨again, acceptedAgain⟩ :=
    wellFormed.exists_ok (fun value inside => never value (inside distinctEncoded)) fitsEncoded there
  have fixed := wellFormed.normalize_eq_self timeless distinct fits same
  exact ⟨again, acceptedAgain, (wellFormed.survives repeats distinctEncoded acceptedAgain).decoded.encodes fixed⟩

end TypeTree

/-- Encoded output is a fixed point: it is accepted again, and encoding what was decoded from it gives it back. -/
theorem encoded_is_fixed_point {r : Registry ω} {events : List (Event ω)} (reached : r.Reached events)
    (plain : ∀ event ∈ events, event.Plain) (timeless : ∀ given, .registered (.shape Stock.date.name given) ∉ events)
    (never : r.NeverRefuses events) {target : Target} {input : Json} (distinct : input.Distinct) {d : Decoded ω}
    (accepted : (Decoder.mk r).decode target input = .ok (.ok d)) :
    ∃ encoded again, (Decoder.mk r).encode target d = .ok encoded ∧
      (Decoder.mk r).decode target encoded = .ok (.ok again) ∧ (Decoder.mk r).encode target again = .ok encoded := by
  have described := reached.described plain
  obtain ⟨tree, expanded, wellFormed, validated⟩ := described.of_decode accepted
  have noTimestamps : TypeTree.Timeless (bookOf events) := by
    intro listed
    obtain ⟨given, member⟩ := bookOf_stock listed
    exact timeless given member
  obtain ⟨again, acceptedAgain, encodedAgain⟩ :=
    wellFormed.encode_again noTimestamps ((reached.recorded plain).neverRefuses described.listed never) distinct
      validated (.top tree.shape.name)
  exact ⟨tree.shape.encode d, again, described.encode_eq_ok expanded d,
    (described.decode_eq_ok_iff expanded).mpr acceptedAgain,
    encodedAgain ▸ described.encode_eq_ok expanded again⟩

section Ledger

/-- Makes an object of the name alone, and fails where there is none. -/
def makeByName : Json → Except String (Product Json)
  | .obj fields =>
    match Fields.get? "name" fields with
    | some (.str name) => .ok (.made (.str name))
    | _ => .error "no name"
  | _ => .error "no fields"

def namedEvents : List (Event Json) :=
  [.registered (.schema ledgerSchema), .registered (.ofClass { account with construct := makeByName })]

def namedRegistry : Registry Json :=
  ((Registry.empty.register (.ofClass { account with construct := makeByName })).1.register (.schema ledgerSchema)).1

/-- A ledger with an `attrs` of its own in front, into whose place the last field moves. -/
def stampedInput : Json :=
  .arr [.obj [(attrsKey, .bool true), ("note", .str "n"), ("owner", .obj [("name", .str "x"), ("age", .null)])]]

def stampedDecoded : Decoded Json :=
  let holder : Json := .obj [("name", .str "x"), ("age", .null)]
  .arr [.obj [(attrsKey, .obj []), ("note", .str "n"), ("owner", .constructed "Account" holder (.made (.str "x")))]]

theorem stampedInput_distinct : stampedInput.Distinct :=
  ⟨⟨by decide, trivial, trivial, ⟨by decide, trivial, trivial, trivial⟩, trivial⟩, trivial⟩

theorem namedRegistry_reached : namedRegistry.Reached namedEvents := .register (.register .empty rfl) rfl

theorem namedEvents_plain : ∀ event ∈ namedEvents, event.Plain :=
  List.forall_mem_cons.mpr ⟨⟨by decide, trivial, trivial, trivial, trivial⟩,
    List.forall_mem_singleton.mpr ⟨by decide, trivial, ⟨trivial, trivial, trivial⟩, trivial⟩⟩

/-- The constructor fails on much, but on nothing that its schema lets through. -/
theorem namedRegistry_neverRefuses : namedRegistry.NeverRefuses namedEvents := by
  intro c member inner attrs slot value here d distinct validated
  obtain rfl : c = { account with construct := makeByName } := by simpa [namedEvents] using member
  have described := namedRegistry_reached.described namedEvents_plain
  have holder : bookOf namedEvents "Holder" = some (.record (some "Holder") false
      [⟨"name", .scalar .string, false⟩, ⟨"age", .union [.scalar .number, .scalar .null], true⟩]) := rfl
  cases (described.listed _ _ holder).symm.trans slot
  have wellFormed := described.wellFormed _ _ holder
  have timeless : TypeTree.Timeless (bookOf namedEvents) := nofun
  have apart : TypeTree.KeepsInstantsApart (bookOf namedEvents) := fun _ _ _ _ _ _ _ _ => Or.inr timeless
  have same := (wellFormed.survives (TypeTree.hereditary_faithful apart) distinct validated).decoded.encodes
  cases value with
  | obj fields =>
    obtain ⟨others, written, _, origin⟩ := TypeTree.fields_of_normal_eq (Json.distinct_obj_iff.mp distinct).1 same
    have present := TypeTree.propsConform_iff.mp (wellFormed.conforms_of_ok validated) ⟨"name", .scalar .string, false⟩
      List.mem_cons_self
    have named := origin "name"
    cases found : Fields.get? "name" fields with
    | none => cases present.1 found
    | some old =>
      have isText := present.2 old found
      cases old with
      | str name =>
        rw [found] at named
        obtain ⟨made, there, equal⟩ := Option.map_eq_some_iff.mp named
        cases made with
        | str other =>
          refine ⟨.made (.str other), ?_⟩
          show makeByName (Shape.encode _ d) = _
          rw [written, makeByName, there]
        | _ => cases equal
      | _ => cases isText
  | _ => cases wellFormed.conforms_of_ok validated

theorem encoded_is_fixed_point_ledger : ∃ encoded again,
    (Decoder.mk namedRegistry).encode (.arrayOf (.named "Ledger")) stampedDecoded = .ok encoded ∧
      (Decoder.mk namedRegistry).decode (.arrayOf (.named "Ledger")) encoded = .ok (.ok again) ∧
      (Decoder.mk namedRegistry).encode (.arrayOf (.named "Ledger")) again = .ok encoded :=
  encoded_is_fixed_point namedRegistry_reached namedEvents_plain nofun namedRegistry_neverRefuses
    stampedInput_distinct rfl

end Ledger

end Conform
