import Conform.Proofs.Book
import Conform.Proofs.Leaf
import Conform.Proofs.Shape.Record

namespace Conform

variable {ω : Type}

namespace TypeTree

mutual

/-- Whether an input has the structure that a type asks for. Undeclared keys, and `attrs`, play no part. -/
def conforms : TypeTree ω → Json → Bool
  | scalar kind, input => kind.holds input
  | stock kind, input => (kind.shape : Shape ω).accepts input
  | array element, .arr items => items.all (conforms element)
  | array _, _ => false
  | union members, input => someConforms members input
  | record _ _ props, .obj fields => propsConform props fields
  | record _ _ _, _ => false
  | ofClass _ inner _, input => conforms inner input

def someConforms : List (TypeTree ω) → Json → Bool
  | [], _ => false
  | member :: rest, input => conforms member input || someConforms rest input

/-- A required property is there and conforms, an optional one conforms where it is there. -/
def propsConform : List (Property (TypeTree ω)) → Fields Json → Bool
  | [], _ => true
  | ⟨name, type, optional⟩ :: rest, fields =>
    (match Fields.get? name fields with
      | some value => conforms type value
      | none => optional) && propsConform rest fields

end

theorem someConforms_iff {members : List (TypeTree ω)} {input : Json} :
    someConforms members input = true ↔ ∃ member ∈ members, member.conforms input = true := by
  induction members with
  | nil => simp [someConforms]
  | cons member rest ih => simp [someConforms, ih]

theorem propsConform_iff {props : List (Property (TypeTree ω))} {fields : Fields Json} :
    propsConform props fields = true ↔ ∀ p ∈ props,
      (Fields.get? p.name fields = none → p.optional = true) ∧
        ∀ value, Fields.get? p.name fields = some value → p.type.conforms value = true := by
  induction props with
  | nil => simp [propsConform]
  | cons p rest ih =>
    obtain ⟨name, type, optional⟩ := p
    rw [List.forall_mem_cons, ← ih, propsConform, Bool.and_eq_true]
    cases Fields.get? name fields <;> simp

section Decode

variable {book : Book ω} {t : TypeTree ω}

/-- A rejection by the shape of a tree says something: by induction on the tree. -/
theorem WellFormed.reporting (wellFormed : t.WellFormed book) : t.shape.Reporting := by
  induction wellFormed with
  | scalar kind => exact (Shape.leaf_scalar kind).reporting
  | @stock kind _ => exact kind.leaf_shape.reporting
  | array _ _ => exact Shape.array_reporting _
  | @union members _ ih =>
    intro input here found rejected
    rw [shape, shapes_eq_map, Shape.validate_oneOf] at rejected
    exact Shape.union_reporting (List.forall_mem_map.mpr ih) input here found rejected
  | record _ _ _ _ =>
    intro input here found rejected
    exact Shape.ofParts_reporting _ _ _ input here found (Shape.validate_ofProps_eq_error_iff.mp rejected)
  | ofClass _ _ ih => exact Shape.ofClass_reporting ih

/-- What the shape of a tree accepts conforms to the tree: by induction on the tree. -/
theorem WellFormed.conforms_of_ok (wellFormed : t.WellFormed book) : ∀ {input : Json} {here : Position} {d : Decoded ω},
    t.shape.validate input here = .ok d → t.conforms input = true := by
  induction wellFormed with
  | scalar kind =>
    intro input here d accepted
    rw [conforms, ← @Scalar.accepts_eq_holds ω]
    exact ((Shape.leaf_scalar kind).of_ok accepted).1
  | @stock kind _ => exact fun accepted => (kind.leaf_shape.of_ok accepted).1
  | @array element inner ih =>
    intro input here d accepted
    cases input with
    | arr items =>
      obtain ⟨parts, _, each⟩ := Shape.validate_array_eq_ok inner.reporting accepted
      have fits : List.Forall₂ (fun item part => element.conforms item = true ∧
          ∃ place, element.shape.validate item place = .ok part) items parts :=
        each.imp fun item part ⟨place, validated⟩ => ⟨ih validated, place, validated⟩
      rw [conforms, List.all_eq_true]
      exact ((List.forall₂_and_left items parts).mp fits).1
    | _ => cases accepted
  | @union members each ih =>
    intro input here d accepted
    rw [shape, shapes_eq_map, Shape.validate_oneOf, Shape.validate_union_eq_ok_iff] at accepted
    obtain ⟨before, s, after, split, _, validated⟩ := accepted
    have inShapes : s ∈ members.map shape := by simp [split]
    obtain ⟨member, inMembers, rfl⟩ := List.mem_map.mp inShapes
    exact someConforms_iff.mpr ⟨member, inMembers, ih member inMembers validated⟩
  | @record name attrs props nodup _ each ih =>
    intro input here d accepted
    obtain ⟨fields, part, rfl, settled, _⟩ :=
      validate_record_eq_ok nodup (fun p member => (each p member).reporting) accepted
    refine propsConform_iff.mpr fun p member => ⟨settled.present p member, fun value present => ?_⟩
    obtain ⟨place, l, validated, _⟩ := settled.declared p member value present
    exact ih p member validated
  | @ofClass className inner construct _ _ ih =>
    intro input here d accepted
    obtain ⟨structural, _, validated, _, _⟩ := Shape.validate_ofClass_eq_ok accepted
    exact ih validated

/-- What the shape of a tree rejects does not conform to it: by induction on the tree. -/
theorem WellFormed.not_conforms_of_invalid (wellFormed : t.WellFormed book) :
    ∀ {input : Json} {here : Position} {found : List Mismatch},
      t.shape.validate input here = .error (.invalid found) → t.conforms input = false := by
  induction wellFormed with
  | scalar kind =>
    intro input here found rejected
    rw [conforms, ← @Scalar.accepts_eq_holds ω]
    exact ((Shape.leaf_scalar kind).of_error rejected).1
  | @stock kind _ => exact fun rejected => (kind.leaf_shape.of_error rejected).1
  | @array element inner ih =>
    intro input here found rejected
    cases input with
    | arr items =>
      obtain ⟨item, member, place, more, wrong⟩ := Shape.validate_array_eq_invalid rejected
      rw [conforms, List.all_eq_false]
      exact ⟨item, member, by simp [ih wrong]⟩
    | _ => rfl
  | @union members each ih =>
    intro input here found rejected
    rw [shape, shapes_eq_map, Shape.validate_oneOf] at rejected
    have reporting : ∀ s ∈ members.map shape, s.Reporting :=
      List.forall_mem_map.mpr fun member inMembers => (each member inMembers).reporting
    obtain ⟨_, all⟩ := Shape.validate_union_eq_invalid reporting rejected
    -- Every member has rejected, so none of them can be the one that conforms.
    rw [conforms, Bool.eq_false_iff, ne_eq, someConforms_iff]
    rintro ⟨member, inMembers, fits⟩
    obtain ⟨more, wrong⟩ := all _ (List.mem_map_of_mem inMembers)
    rw [ih member inMembers wrong] at fits
    cases fits
  | @record name attrs props _ _ _ ih =>
    intro input here found rejected
    rcases validate_record_eq_invalid rejected with other | ⟨fields, rfl, p, member, cause⟩
    · cases input with
      | obj fields => exact absurd rfl (other fields)
      | _ => rfl
    · rw [conforms, Bool.eq_false_iff, ne_eq, propsConform_iff]
      intro fits
      obtain ⟨present, declared⟩ := fits p member
      rcases cause with ⟨absent, isRequired⟩ | ⟨value, found, place, more, wrong⟩
      · rw [present absent] at isRequired
        cases isRequired
      · have conforms := declared value found
        rw [ih p member wrong] at conforms
        cases conforms
  | @ofClass className inner construct _ _ ih =>
    intro input here found rejected
    exact ih (Shape.validate_ofClass_eq_invalid rejected)

/-- A constructor of a class in a book fails on what the class makes of a value. -/
def Refuses (book : Book ω) (value : Json) : Prop :=
  ∃ className inner construct place structural message, book className = some (.ofClass className inner construct) ∧
    inner.shape.validate value place = .ok structural ∧
    construct (Shape.handed inner.shape inner.addsAttrs structural) = .error message

/-- A decoding that neither accepts nor rejects comes of a constructor that fails. -/
theorem WellFormed.exists_refused (wellFormed : t.WellFormed book) : ∀ {input : Json} {here : Position}
    {e : DecodeError}, t.shape.validate input here = .error (.fatal e) →
      ∃ value, Refuses book value ∧ (input.Distinct → value.Distinct) := by
  induction wellFormed with
  | scalar kind =>
    intro input here e failed
    obtain ⟨_, expected, equal⟩ := (Shape.leaf_scalar kind).of_error failed
    cases equal
  | @stock kind _ =>
    intro input here e failed
    obtain ⟨_, expected, equal⟩ := kind.leaf_shape.of_error failed
    cases equal
  | @array element _ ih =>
    intro input here e failed
    cases input with
    | arr items =>
      obtain ⟨item, member, place, cause⟩ := Shape.validate_array_eq_fatal failed
      obtain ⟨value, refuses, inside⟩ := ih cause
      exact ⟨value, refuses, fun distinct => inside (Json.distinct_arr_iff.mp distinct item member)⟩
    | _ => cases failed
  | @union members each ih =>
    intro input here e failed
    rw [shape, shapes_eq_map, Shape.validate_oneOf] at failed
    obtain ⟨s, inShapes, cause⟩ := Shape.validate_union_eq_fatal failed
    obtain ⟨member, inMembers, rfl⟩ := List.mem_map.mp inShapes
    exact ih member inMembers cause
  | record _ _ _ ih =>
    intro input here e failed
    obtain ⟨p, member, fields, part, place, rfl, present, cause⟩ := validate_record_eq_fatal failed
    obtain ⟨value, refuses, inside⟩ := ih p member cause
    exact ⟨value, refuses, fun distinct => inside (distinct.of_get? present)⟩
  | @ofClass className inner construct listed _ ih =>
    intro input here e failed
    rcases Shape.validate_ofClass_eq_fatal failed with inside | ⟨structural, message, validated, refused⟩
    · exact ih inside
    · exact ⟨input, ⟨className, inner, construct, here, structural, message, listed, validated, refused⟩, id⟩

/-- What conforms is accepted, unless a constructor fails on what it is given. -/
theorem WellFormed.exists_ok (wellFormed : t.WellFormed book) {input : Json}
    (never : ∀ value : Json, (input.Distinct → value.Distinct) → ¬Refuses book value) (fits : t.conforms input = true)
    (here : Position) : ∃ d, t.shape.validate input here = .ok d := by
  cases result : t.shape.validate input here with
  | ok d => exact ⟨d, rfl⟩
  | error f => cases f with
    | invalid found =>
      rw [wellFormed.not_conforms_of_invalid result] at fits
      cases fits
    | fatal e =>
      obtain ⟨value, refuses, inside⟩ := wellFormed.exists_refused result
      exact absurd refuses (never value inside)

end Decode

end TypeTree

/-- No constructor of a class in a book fails on what it is given. -/
def Book.NeverRefuses (book : Book ω) : Prop := ∀ value : Json, value.Distinct → ¬TypeTree.Refuses book value

/-- Every constructor of a registered class makes something of whatever its class gives it. -/
def Registry.NeverRefuses (r : Registry ω) (events : List (Event ω)) : Prop :=
  ∀ c, .registered (.ofClass c) ∈ events → ∀ inner attrs,
    r.slot? c.schema.name = some (.resolved inner attrs) → ∀ (value : Json) (here : Position) (d : Decoded ω),
      value.Distinct → inner.validate value here = .ok d →
        ∃ product, c.construct (Shape.handed inner attrs d) = .ok product

/-- Every class of the book was registered, so its constructor is asked only for what its name
decodes. -/
theorem Recorded.neverRefuses {r : Registry ω} {events : List (Event ω)} {book : Book ω}
    (recorded : Recorded events book)
    (listed : ∀ name tree, book name = some tree → r.slot? name = some (.resolved tree.shape tree.addsAttrs))
    (never : r.NeverRefuses events) : book.NeverRefuses := by
  rintro value distinct ⟨className, inner, construct, place, structural, message, isClass, validated, refused⟩
  obtain ⟨c, member, rfl, schema⟩ := recorded.origins _ _ _ _ isClass
  obtain ⟨product, made⟩ := never c member _ _ (listed _ _ schema) value place structural distinct validated
  cases made.symm.trans refused

/-- No constructor of a registered class fails. -/
def NeverFails (events : List (Event ω)) : Prop :=
  ∀ c, .registered (.ofClass c) ∈ events → ∀ raw, ∃ product, c.construct raw = .ok product

namespace NeverFails

variable {events : List (Event ω)}

/-- What never fails does not fail on what it is given. -/
theorem neverRefuses (total : NeverFails events) (r : Registry ω) : r.NeverRefuses events :=
  fun c member _ _ _ _ _ _ _ _ => total c member _

theorem not_refuses (total : NeverFails events) (value : Json) : ¬TypeTree.Refuses (bookOf events) value := by
  rintro ⟨_, _, _, _, _, _, listed, _, refused⟩
  obtain ⟨c, member, rfl⟩ := bookOf_ofClass listed
  obtain ⟨product, made⟩ := total c member _
  cases made.symm.trans refused

end NeverFails

/-- Decoding as a registered name accepts exactly the inputs that conform to what the name stands for. -/
theorem decode_accepts_iff_conforms {r : Registry ω} {events : List (Event ω)} (reached : r.Reached events)
    (plain : ∀ event ∈ events, event.Plain) (total : NeverFails events) {name : String}
    (known : r.contains name = true) :
    ∃ tree, bookOf events name = some tree ∧ ∀ input,
      (∃ d, (Decoder.mk r).decode (.named name) input = .ok (.ok d)) ↔ tree.conforms input = true := by
  have described := reached.described plain
  obtain ⟨tree, listed⟩ := described.exists_of_contains known
  have wellFormed := described.wellFormed name tree listed
  have expanded : (Target.named name).expand (bookOf events) = some tree := listed
  refine ⟨tree, listed, fun input => ?_⟩
  simp only [described.decode_eq_ok_iff expanded]
  constructor
  · rintro ⟨d, accepted⟩
    exact wellFormed.conforms_of_ok accepted
  · exact fun fits => wellFormed.exists_ok (fun value _ => total.not_refuses value) fits (.top tree.shape.name)

def account : ClassDefinition Json where
  className := "Account"
  schema := ⟨"Holder", [⟨"name", .scalar .string, false⟩, ⟨"age", .nullable (.scalar .number), true⟩]⟩
  construct raw := .ok (.made raw)

theorem decode_accepts_iff_conforms_account : ∃ tree, bookOf [.registered (.ofClass account)] "Account" = some tree ∧
    ∀ input, (∃ d, (Decoder.mk (Registry.empty.register (.ofClass account)).1).decode (.named "Account") input =
      .ok (.ok d)) ↔ tree.conforms input = true :=
  decode_accepts_iff_conforms (.register .empty rfl)
    (by
      intro event member
      cases List.mem_singleton.mp member
      exact ⟨by decide, trivial, ⟨trivial, trivial, trivial⟩, trivial⟩)
    (by
      intro c member raw
      cases List.mem_singleton.mp member
      exact ⟨.made raw, rfl⟩)
    (by decide)

end Conform
