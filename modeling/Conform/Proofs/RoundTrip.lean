import Conform.Proofs.Membership

namespace Conform

variable {ω : Type}

/-- An input conforms to every type that its decoded value belongs to. -/
def Certifies (book : Book ω) (d : Decoded ω) (input : Json) : Prop :=
  ∀ t : TypeTree ω, t.WellFormed book → t.shape.is d = true → t.conforms input = true

namespace TypeTree

variable {book : Book ω} {t : TypeTree ω}

/-- A union aside, it is enough to look at the types in turn. -/
theorem certifies_of {d : Decoded ω} {input : Json}
    (plain : ∀ t : TypeTree ω, t.WellFormed book → (∀ members, t ≠ union members) → t.shape.is d = true →
      t.conforms input = true) : Certifies book d input := by
  intro t wellFormed
  induction wellFormed with
  | union each ih =>
    intro belongs
    rw [shape, shapes_eq_map, Shape.is_oneOf, Shape.someIs_iff] at belongs
    obtain ⟨s, inShapes, inside⟩ := belongs
    obtain ⟨member, inMembers, rfl⟩ := List.mem_map.mp inShapes
    exact someConforms_iff.mpr ⟨member, inMembers, ih member inMembers inside⟩
  | scalar kind => exact plain _ (.scalar kind) (by simp)
  | stock listed => exact plain _ (.stock listed) (by simp)
  | array inner _ => exact plain _ (.array inner) (by simp)
  | record nodup reserved each _ => exact plain _ (.record nodup reserved each) (by simp)
  | ofClass listed inner _ => exact plain _ (.ofClass listed inner) (by simp)

theorem not_is_record {name : Option String} {attrs : Bool} {props : List (Property (TypeTree ω))} {d : Decoded ω}
    (other : ∀ parts, d ≠ .obj parts) : (record name attrs props).shape.is d = false := by
  rw [shape, Shape.is_ofProps, Bool.eq_false_iff]
  intro belongs
  obtain ⟨parts, rfl⟩ := Shape.obj_of_is_ofParts belongs
  exact other parts rfl

theorem accepts_of_is_stock {kind : Stock} {input : Json}
    (belongs : (kind.shape : Shape ω).is (.ofJson input) = true) : (kind.shape : Shape ω).accepts input = true := by
  cases kind with
  | date => cases input <;> cases belongs
  | latitude | longitude | nonEmptyString => exact (is_refine_ofJson _ _ _ input).symm.trans belongs

/-- A value without parts belongs only to types that its input conforms to. -/
theorem certifies_leaf {input : Json} (noArray : ∀ items, input ≠ .arr items)
    (noObject : ∀ fields, input ≠ .obj fields) : Certifies book (.ofJson input) input := by
  refine certifies_of fun t wellFormed noUnion belongs => ?_
  cases wellFormed with
  | scalar kind => exact (is_scalar_ofJson kind input).symm.trans belongs
  | stock _ => exact accepts_of_is_stock belongs
  | union _ => exact absurd rfl (noUnion _)
  | array _ | ofClass _ _ =>
    cases input with
    | arr items => exact absurd rfl (noArray items)
    | _ => cases belongs
  | record _ _ _ =>
    rw [not_is_record] at belongs
    · cases belongs
    · cases input with
      | obj fields => exact absurd rfl (noObject fields)
      | _ => simp [Decoded.ofJson]

theorem certifies_arr {items : List Json} {parts : List (Decoded ω)}
    (each : List.Forall₂ (fun item part => Certifies book part item) items parts) :
    Certifies book (.arr parts) (.arr items) := by
  refine certifies_of fun t wellFormed noUnion belongs => ?_
  cases wellFormed with
  | scalar kind => cases kind <;> cases belongs
  | @stock kind _ => cases kind <;> cases belongs
  | union _ => exact absurd rfl (noUnion _)
  | ofClass _ _ => cases belongs
  | record _ _ _ =>
    rw [not_is_record (by simp)] at belongs
    cases belongs
  | @array element inner =>
    rw [shape, Shape.is] at belongs
    rw [conforms]
    induction each with
    | nil => rfl
    | cons first _ ih =>
      rw [List.all_cons, Bool.and_eq_true] at belongs ⊢
      exact ⟨first element inner belongs.1, ih belongs.2⟩

/-- An object certifies its input when its parts do, the reserved one left aside. -/
theorem certifies_obj {fields : Fields Json} {parts : Fields (Decoded ω)} {part : String → Json → Decoded ω}
    (same : ∀ key, key ≠ attrsKey → Fields.get? key parts = (Fields.get? key fields).map (part key))
    (each : ∀ key, key ≠ attrsKey → ∀ value, Fields.get? key fields = some value →
      Certifies book (part key value) value) :
    Certifies book (.obj parts) (.obj fields) := by
  refine certifies_of fun t wellFormed noUnion belongs => ?_
  cases wellFormed with
  | scalar kind => cases kind <;> cases belongs
  | @stock kind _ => cases kind <;> cases belongs
  | union _ => exact absurd rfl (noUnion _)
  | array _ | ofClass _ _ => cases belongs
  | record nodup reserved inner =>
    rw [is_record_obj_iff] at belongs
    refine propsConform_iff.mpr fun p member => ?_
    have different := name_ne_attrs reserved member
    obtain ⟨present, inside⟩ := belongs p member
    rw [same p.name different] at present inside
    refine ⟨fun absent => present (by rw [absent]; rfl), fun value found => ?_⟩
    exact each p.name different value found p.type (inner p member) (inside _ (by rw [found]; rfl))

/-- A value that was only read belongs to a type exactly as its input conforms to it. -/
theorem certifies_ofJson (input : Json) : Certifies book (.ofJson input) input := by
  induction input using Json.induction with
  | null | bool _ | num _ | str _ => exact certifies_leaf (by simp) (by simp)
  | arr items ih =>
    rw [Decoded.ofJson_arr]
    exact certifies_arr (List.forall₂_map_right_iff.mpr (List.forall₂_same.mpr ih))
  | obj fields ih =>
    rw [Decoded.ofJson_obj]
    exact certifies_obj (fun key _ => Fields.get?_mapWithKey _ key fields)
      fun key _ value found => ih (key, value) (Fields.mem_of_get? found)

/-- A constructed value belongs to a timestamp or to the class that constructed it. -/
theorem constructed_of_is {className : String} {raw : Json} {product : Product ω} (wellFormed : t.WellFormed book)
    (noUnion : ∀ members, t ≠ union members) (belongs : t.shape.is (.constructed className raw product) = true) :
    (t = stock .date ∧ book Stock.date.name = some (stock .date) ∧ ∃ moment, product = .instant moment) ∨
      ∃ inner construct, t = ofClass className inner construct ∧
        book className = some (.ofClass className inner construct) := by
  cases wellFormed with
  | scalar kind => cases kind <;> cases belongs
  | @stock kind known =>
    cases kind with
    | date =>
      cases product with
      | instant moment => exact Or.inl ⟨rfl, known, moment, rfl⟩
      | made object => cases belongs
    | latitude | longitude | nonEmptyString => cases belongs
  | union _ => exact absurd rfl (noUnion _)
  | array _ => cases belongs
  | record _ _ _ =>
    rw [not_is_record (by simp)] at belongs
    cases belongs
  | ofClass known _ =>
    rw [shape, Shape.is, decide_eq_true_eq] at belongs
    subst belongs
    exact Or.inr ⟨_, _, rfl, known⟩

/-- A moment belongs to the date alone, which accepts what it was read from. -/
theorem certifies_moment (listed : book "Date" = some (.stock .date)) {input raw : Json} {moment : Instant}
    (accepted : (Stock.date.shape : Shape ω).accepts input = true) :
    Certifies book (.constructed "Date" raw (.instant moment)) input := by
  refine certifies_of fun t wellFormed noUnion belongs => ?_
  rcases constructed_of_is wellFormed noUnion belongs with ⟨rfl, _⟩ | ⟨inner, construct, rfl, known⟩
  · exact accepted
  · rw [listed] at known
    cases known

/-- No name of a book stands for timestamps. -/
def Timeless (book : Book ω) : Prop := book Stock.date.name ≠ some (stock .date)

/-- What a class of a book constructs passes for no timestamp: it is none, or there are none in the book. -/
def KeepsInstantsApart (book : Book ω) : Prop :=
  ∀ name className inner construct, book name = some (.ofClass className inner construct) →
    ∀ raw product, construct raw = .ok product → (∃ object, product = .made object) ∨ Timeless book

/-- An instance belongs to its own class alone, which recognizes what it was built from. -/
theorem certifies_product (apart : KeepsInstantsApart book) {className : String} {inner : TypeTree ω}
    {construct : Json → Except String (Product ω)}
    (listed : book className = some (.ofClass className inner construct)) {input raw : Json} {product : Product ω}
    (constructed : construct raw = .ok product) (fits : inner.conforms input = true) :
    Certifies book (.constructed className raw product) input := by
  refine certifies_of fun t wellFormed noUnion belongs => ?_
  rcases constructed_of_is wellFormed noUnion belongs with ⟨_, known, moment, rfl⟩ | ⟨inner, construct, rfl, known⟩
  · rcases apart _ _ _ _ listed _ _ constructed with ⟨object, other⟩ | timeless
    · cases other
    · exact absurd known timeless
  · rw [listed] at known
    cases known
    exact fits

/-- A decoded value from which the encoder of its type finds back to the input. -/
structure Faithful (book : Book ω) (t : TypeTree ω) (input : Json) (d : Decoded ω) : Prop where
  belongs : t.shape.is d = true
  certifies : Certifies book d input
  encodes : (t.shape.encode d).normal = (t.normalize input).normal

theorem faithful_scalar {kind : Scalar} {input : Json} (fits : kind.holds input = true) :
    Faithful book (scalar kind) input (.ofJson input) where
  belongs := (is_scalar_ofJson kind input).trans fits
  certifies := certifies_ofJson input
  encodes := by rw [shape, Shape.encode, Decoded.toJson_ofJson, normalize]

/-- A built-in type is faithful: it guards its values and encodes them in their normal form. -/
theorem faithful_stock {kind : Stock} (listed : book kind.name = some (.stock kind)) {input : Json}
    (accepted : (kind.shape : Shape ω).accepts input = true) : Faithful book (stock kind) input (kind.value input) := by
  cases kind with
  | date =>
    obtain ⟨text, moment, rfl, known⟩ := exists_moment_of_accepts accepted
    have value : (Stock.date.value (.str text) : Decoded ω) = .constructed "Date" (.str text) (.instant moment) := by
      rw [Stock.value, known]
    refine ⟨is_stock_value accepted, value ▸ certifies_moment listed accepted, ?_⟩
    rw [value, normalize, Stock.normalize, known]
    rfl
  | latitude | longitude | nonEmptyString =>
    refine ⟨is_stock_value accepted, certifies_ofJson input, ?_⟩
    exact congrArg Json.normal (Decoded.toJson_ofJson input)

theorem Faithful.array {element : TypeTree ω} {items : List Json} {parts : List (Decoded ω)}
    (each : List.Forall₂ (fun item part => Faithful book element item part) items parts) :
    Faithful book (array element) (.arr items) (.arr parts) where
  belongs := (@hereditary_is ω book).array (each.imp fun _ _ faithful => faithful.belongs)
  certifies := certifies_arr (each.imp fun _ _ faithful => faithful.certifies)
  encodes := by
    rw [shape, Shape.encode, normalize, Json.normal_arr_eq_iff]
    induction each with
    | nil => rfl
    | cons first _ ih => rw [List.map_cons, List.map_cons, List.map_cons, List.map_cons, first.encodes, ih]

/-- No member before the one that accepted an input takes what that one made of it. -/
theorem encode_union_of_certifies {members : List (TypeTree ω)} (each : ∀ m ∈ members, m.WellFormed book)
    {member : TypeTree ω} {input : Json} (first : members.find? (fun m => m.conforms input) = some member)
    {d : Decoded ω} (certifies : Certifies book d input) (belongs : member.shape.is d = true) :
    (union members).shape.encode d = member.shape.encode d := by
  obtain ⟨_, before, after, rfl, earlier⟩ := List.find?_eq_some_iff_append.mp first
  have others : ∀ other ∈ before.map shape, other.is d = false := by
    refine List.forall_mem_map.mpr fun other inBefore => ?_
    rw [Bool.eq_false_iff]
    intro belongs
    have fits := certifies other (each other (List.mem_append_left _ inBefore)) belongs
    simpa [fits] using earlier other inBefore
  rw [shape, shapes_eq_map, List.map_append, List.map_cons, Shape.encode_oneOf_append others belongs]

/-- A union is faithful by its first conforming member: no earlier one guards the value. -/
theorem Faithful.union {members : List (TypeTree ω)} (each : ∀ m ∈ members, m.WellFormed book) {member : TypeTree ω}
    {input : Json} (first : members.find? (fun m => m.conforms input) = some member) {d : Decoded ω}
    (faithful : Faithful book member input d) : Faithful book (union members) input d where
  belongs := is_union_iff.mpr ⟨_, List.mem_of_find?_eq_some first, faithful.belongs⟩
  certifies := faithful.certifies
  encodes := by
    rw [encode_union_of_certifies each first faithful.certifies faithful.belongs, faithful.encodes, normalize,
      normalizeFirst_eq first]

/-- A record is faithful when its fields are, with the reserved key put in or not. -/
theorem Faithful.record {name : Option String} {attrs shown : Bool} {props : List (Property (TypeTree ω))}
    (nodup : (props.map Property.name).Nodup) (reserved : attrsKey ∉ props.map Property.name) {fields : Fields Json}
    (distinct : (Fields.keys fields).Nodup) (declares : shown = true → attrs = true)
    {part : String → Json → Decoded ω} (each : Fieldwise (Faithful book) props fields part) :
    Faithful book (record name attrs props) (.obj fields) (.obj (putAttrs shown (Fields.mapWithKey part fields))) where
  belongs := each.is_record Faithful.belongs reserved
  certifies := by
    have kept : ∀ key, key ≠ attrsKey → Fields.get? key (putAttrs shown (Fields.mapWithKey part fields)) =
        (Fields.get? key fields).map (part key) :=
      fun key different => get?_putAttrs_mapWithKey shown part fields fun equal => different equal.2
    refine certifies_obj kept fun key _ value found => ?_
    by_cases known : key ∈ props.map Property.name
    · obtain ⟨p, member, rfl⟩ := List.mem_map.mp known
      exact (each.declared p member value found).certifies
    · rw [each.others key known]
      exact certifies_ofJson value
  encodes := by
    have distinctParts := nodup_keys_putAttrs (Fields.nodup_keys_mapWithKey distinct part) shown
    obtain ⟨out, write, encoded, distinctOut, written, byType, plain⟩ :=
      @encode_record_obj ω name attrs props nodup _ distinctParts
    have distinctNormal := Fields.nodup_keys_mapWithKey distinct (normalizeProp props)
    rw [encoded, normalize, Json.normal_obj_eq_iff distinctOut (nodup_keys_dropAttrs distinctNormal attrs)]
    intro key
    rw [written, get?_dropAttrs distinctNormal]
    -- Compared key by key: the reserved one is gone on both sides, and the others were decoded or kept plain.
    by_cases dropped : attrs = true ∧ key = attrsKey
    · rw [if_pos dropped, if_pos dropped]
    · have inParts := get?_putAttrs_mapWithKey shown part fields fun equal => dropped ⟨declares equal.1, equal.2⟩
      rw [if_neg dropped, if_neg dropped, inParts, Fields.get?_mapWithKey]
      cases found : Fields.get? key fields with
      | none => rfl
      | some value =>
        simp only [Option.map_some, Option.some.injEq]
        by_cases known : key ∈ props.map Property.name
        · obtain ⟨p, member, rfl⟩ := List.mem_map.mp known
          rw [byType p member, (each.declared p member value found).encodes, normalizeProp_of_mem nodup member]
        · rw [plain key known, each.others key known, Decoded.toJson_ofJson, normalizeProp_of_not_mem known]

/-- Where decoding adds `attrs` to the top, the normal form has none there. -/
theorem WellFormed.normalize_of_addsAttrs (wellFormed : t.WellFormed book) (adds : t.addsAttrs = true) {input : Json}
    (distinct : input.Distinct) (fits : t.conforms input = true) :
    ∃ fields, t.normalize input = .obj fields ∧ attrsKey ∉ Fields.keys fields := by
  induction wellFormed with
  | @record name attrs props _ _ _ _ =>
    cases input with
    | obj fields =>
      have nodup := Fields.nodup_keys_mapWithKey (Json.distinct_obj_iff.mp distinct).1 (normalizeProp props)
      refine ⟨_, rfl, Fields.get?_eq_none_iff.mp ?_⟩
      rw [get?_dropAttrs nodup, if_pos ⟨adds, rfl⟩]
    | _ => cases fits
  | ofClass _ _ ih => exact ih adds fits
  | scalar | stock | array | union => cases adds

theorem withoutAttrs_addAttrs {encoded : Json} {fields : Fields Json} (absent : attrsKey ∉ Fields.keys fields)
    (same : encoded.normal = (Json.obj fields).normal) : Shape.withoutAttrs (Shape.addAttrs encoded) = encoded := by
  obtain ⟨others, rfl, perm⟩ := Json.obj_of_normal_eq same
  have absent' : attrsKey ∉ Fields.keys others := fun known => absent (perm.mem_iff.mp known)
  rw [Shape.addAttrs, Shape.withoutAttrs, Fields.swapErase_insert_of_not_mem absent']

/-- The `attrs` that is shown to a constructor is taken away again. -/
theorem Faithful.withoutAttrs_handed {input : Json} {structural : Decoded ω}
    (faithful : Faithful book t input structural) (wellFormed : t.WellFormed book) (distinct : input.Distinct)
    (fits : t.conforms input = true) :
    (if t.addsAttrs then Shape.withoutAttrs (Shape.handed t.shape t.addsAttrs structural)
      else Shape.handed t.shape t.addsAttrs structural) = t.shape.encode structural := by
  rw [Shape.handed]
  cases adds : t.addsAttrs with
  | false => rfl
  | true =>
    obtain ⟨fields, normal, absent⟩ := wellFormed.normalize_of_addsAttrs adds distinct fits
    have encodes := faithful.encodes
    rw [normal] at encodes
    rw [if_pos rfl, if_pos rfl, withoutAttrs_addAttrs absent encodes]

/-- A class is faithful when the type under it is: the instance is written from what it was built
from. -/
theorem Faithful.ofClass (apart : KeepsInstantsApart book) {className : String} {inner : TypeTree ω}
    {construct : Json → Except String (Product ω)}
    (listed : book className = some (.ofClass className inner construct)) (wellFormed : inner.WellFormed book)
    {input : Json} (distinct : input.Distinct) (fits : inner.conforms input = true) {structural : Decoded ω}
    (faithful : Faithful book inner input structural) {product : Product ω}
    (constructed : construct (Shape.handed inner.shape inner.addsAttrs structural) = .ok product) :
    Faithful book (ofClass className inner construct) input
      (.constructed className (Shape.handed inner.shape inner.addsAttrs structural) product) where
  belongs := by simp [shape, Shape.is]
  certifies := certifies_product apart listed constructed fits
  encodes := by
    rw [shape, normalize, Shape.encode, if_pos rfl, faithful.withoutAttrs_handed wellFormed distinct fits,
      faithful.encodes]

/-- Every type is faithful when its parts are. -/
theorem hereditary_faithful (apart : KeepsInstantsApart book) : Hereditary book (Faithful book) where
  scalar fits := faithful_scalar fits
  stock listed accepted := faithful_stock listed accepted
  array each := .array each
  union each first faithful := .union each first faithful
  record nodup reserved distinct declares each := .record nodup reserved distinct declares each
  ofClass listed wellFormed distinct fits faithful := .ofClass apart listed wellFormed distinct fits faithful

/-- A decoded value that is encoded back, as is the input itself where nothing was constructed. -/
structure Recovers (book : Book ω) (t : TypeTree ω) (input : Json) (d : Decoded ω) : Prop where
  faithful : Faithful book t input d
  read : d.holdsConstructed = false → Faithful book t input (.ofJson input)

/-- What decoding accepts is encoded back. -/
theorem WellFormed.recovers (made : ∀ name className inner construct,
      book name = some (.ofClass className inner construct) →
        ∀ raw product, construct raw = .ok product → ∃ object, product = .made object)
    (wellFormed : t.WellFormed book) {input : Json} (distinct : input.Distinct) {here : Position} {d : Decoded ω}
    (accepted : t.shape.validate input here = .ok d) : Recovers book t input d := by
  have apart : KeepsInstantsApart book := fun name className inner construct listed raw product constructed =>
    Or.inl (made name className inner construct listed raw product constructed)
  have survives := wellFormed.survives (hereditary_faithful apart) distinct accepted
  exact ⟨survives.decoded, survives.read⟩

end TypeTree

/-- No constructor of a registered class makes a moment. -/
def MakesNoInstants (events : List (Event ω)) : Prop :=
  ∀ c, .registered (.ofClass c) ∈ events → ∀ raw product, c.construct raw = .ok product →
    ∃ object, product = .made object

/-- Encoding what was decoded gives the input back in its normal form. -/
theorem encode_decode_same {r : Registry ω} {events : List (Event ω)} (reached : r.Reached events)
    (plain : ∀ event ∈ events, event.Plain) (made : MakesNoInstants events) {target : Target} {input : Json}
    (distinct : input.Distinct) {d : Decoded ω} (accepted : (Decoder.mk r).decode target input = .ok (.ok d)) :
    ∃ tree encoded, target.expand (bookOf events) = some tree ∧ (Decoder.mk r).encode target d = .ok encoded ∧
      encoded.same (tree.normalize input) = true := by
  have described := reached.described plain
  obtain ⟨tree, expanded, wellFormed, validated⟩ := described.of_decode accepted
  refine ⟨tree, tree.shape.encode d, expanded, described.encode_eq_ok expanded d, Json.same_iff.mpr ?_⟩
  refine (wellFormed.recovers (fun key className inner construct known => ?_) distinct validated).faithful.encodes
  obtain ⟨c, member, same⟩ := bookOf_ofClass known
  exact same ▸ made c member

def accountInput : Json := .arr [.obj [("name", .str "x"), ("note", .bool true)]]

theorem accountInput_distinct : accountInput.Distinct := ⟨⟨by decide, trivial, trivial, trivial⟩, trivial⟩

def accountDecoded : Decoded Json :=
  .arr [.constructed "Account" (.obj [("name", .str "x"), ("note", .bool true)])
    (.made (.obj [("name", .str "x"), ("note", .bool true)]))]

theorem encode_decode_same_account : ∃ tree encoded,
    Target.expand (bookOf [.registered (.ofClass account)]) (.arrayOf (.named "Account")) = some tree ∧
      (Decoder.mk (Registry.empty.register (.ofClass account)).1).encode (.arrayOf (.named "Account"))
        accountDecoded = .ok encoded ∧ encoded.same (tree.normalize accountInput) = true :=
  encode_decode_same (.register .empty rfl)
    (by
      intro event member
      cases List.mem_singleton.mp member
      exact ⟨by decide, trivial, ⟨trivial, trivial, trivial⟩, trivial⟩)
    (by
      intro c member raw product made
      cases List.mem_singleton.mp member
      cases made
      exact ⟨raw, rfl⟩)
    accountInput_distinct rfl

end Conform
