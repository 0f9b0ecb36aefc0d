import Conform.Proofs.AttrsType
import Conform.Proofs.RoundTrip
import Conform.Proofs.Shape.Repeated
import Conform.Proofs.Shape.Structural

namespace Conform

variable {ω : Type}

namespace TypeTree

mutual

/-- The type with the type of its schema in the place of every class, and with no names of object types. -/
def bare : TypeTree ω → TypeTree ω
  | scalar kind => scalar kind
  | stock kind => stock kind
  | array element => array (bare element)
  | union members => union (bareMembers members)
  | record _ attrs props => record none attrs (bareProps props)
  | ofClass _ inner _ => bare inner

def bareMembers : List (TypeTree ω) → List (TypeTree ω)
  | [] => []
  | member :: rest => bare member :: bareMembers rest

def bareProps : List (Property (TypeTree ω)) → List (Property (TypeTree ω))
  | [] => []
  | ⟨name, type, optional⟩ :: rest => ⟨name, bare type, optional⟩ :: bareProps rest

end

theorem bareMembers_eq_map (members : List (TypeTree ω)) : bareMembers members = members.map bare := by
  induction members with
  | nil => rfl
  | cons member rest ih => rw [bareMembers, ih, List.map_cons]

theorem bareProps_eq_map (props : List (Property (TypeTree ω))) : bareProps props = props.map (.map bare) := by
  induction props with
  | nil => rfl
  | cons p rest ih => rw [bareProps, ih, List.map_cons, Property.map]

/-- A change that keeps which member conforms keeps which one normalizes. -/
theorem normalizeFirst_map {f : TypeTree ω → TypeTree ω} {members : List (TypeTree ω)} {input : Json}
    (conforms : ∀ m ∈ members, (f m).conforms input = m.conforms input)
    (normalize : ∀ m ∈ members, (f m).normalize input = m.normalize input) :
    normalizeFirst (members.map f) input = normalizeFirst members input := by
  induction members with
  | nil => rfl
  | cons member rest ih =>
    obtain ⟨fits, others⟩ := List.forall_mem_cons.mp conforms
    obtain ⟨same, later⟩ := List.forall_mem_cons.mp normalize
    rw [List.map_cons, normalizeFirst, normalizeFirst, fits, same, ih others later]

theorem normalizeProp_map {f : TypeTree ω → TypeTree ω} {props : List (Property (TypeTree ω))}
    (same : ∀ p ∈ props, ∀ value, (f p.type).normalize value = p.type.normalize value) (key : String) (value : Json) :
    normalizeProp (props.map (.map f)) key value = normalizeProp props key value := by
  induction props with
  | nil => rfl
  | cons p rest ih =>
    obtain ⟨here, later⟩ := List.forall_mem_cons.mp same
    rw [List.map_cons, Property.map, normalizeProp, normalizeProp, here, ih later]

section Bare

variable {book : Book ω} {t t' : TypeTree ω}

/-- A class takes what its schema takes. -/
theorem WellFormed.conforms_bare (wellFormed : t.WellFormed book) (input : Json) :
    t.bare.conforms input = t.conforms input := by
  induction wellFormed generalizing input with
  | scalar | stock => rfl
  | array _ ih =>
    rw [bare]
    cases input <;> simp only [conforms, funext ih]
  | union _ ih =>
    rw [bare, bareMembers_eq_map, conforms, conforms, Bool.eq_iff_iff, someConforms_iff, someConforms_iff]
    simp only [List.mem_map, exists_exists_and_eq_and]
    exact exists_congr fun member => and_congr_right fun inMembers => by rw [ih member inMembers]
  | record _ _ _ ih =>
    rw [bare, bareProps_eq_map]
    cases input with
    | obj fields =>
      rw [conforms, conforms, Bool.eq_iff_iff, propsConform_iff, propsConform_iff, List.forall_mem_map]
      exact forall₂_congr fun p member => by simp only [Property.map, ih p member]
    | _ => rfl
  | ofClass _ _ ih => exact ih input

/-- What is decoded as a class and encoded is what its schema makes of it. -/
theorem WellFormed.normalize_bare (wellFormed : t.WellFormed book) (input : Json) :
    t.bare.normalize input = t.normalize input := by
  induction wellFormed generalizing input with
  | scalar | stock => rfl
  | array _ ih =>
    rw [bare]
    cases input <;> simp only [normalize, funext ih]
  | union each ih =>
    rw [bare, bareMembers_eq_map, normalize, normalize]
    exact normalizeFirst_map (fun m member => (each m member).conforms_bare input) fun m member => ih m member input
  | record _ _ _ ih =>
    rw [bare, bareProps_eq_map]
    cases input with
    | obj fields => rw [normalize, normalize, funext₂ (normalizeProp_map ih)]
    | _ => rfl
  | ofClass _ _ ih => exact ih input

end Bare

/-- Two types over a book that are the same but for their classes and the names of their object types. -/
structure Peers (book : Book ω) (t t' : TypeTree ω) : Prop where
  left : t.WellFormed book
  right : t'.WellFormed book
  bare : t.bare = t'.bare

/-- Properties of one name, both required or both optional, whose types are peers. -/
def PropPeers (book : Book ω) (p q : Property (TypeTree ω)) : Prop := p.head = q.head ∧ p.type.Peers book q.type

theorem forall₂_eq_iff {α β γ : Type} {f : α → γ} {g : β → γ} {as : List α} {bs : List β} :
    List.Forall₂ (fun a b => f a = g b) as bs ↔ as.map f = bs.map g := by
  rw [← List.forall₂_eq_eq_eq, List.forall₂_map_left_iff, List.forall₂_map_right_iff]

theorem left_of_forall₂ {α β : Type} {P : α → Prop} {R : α → β → Prop} {as : List α} {bs : List β}
    (each : List.Forall₂ R as bs) (left : ∀ a b, R a b → P a) : ∀ a ∈ as, P a :=
  ((List.forall₂_and_left as bs).mp (each.imp fun a b related => ⟨left a b related, related⟩)).1

namespace Peers

variable {book : Book ω} {t t' : TypeTree ω}

theorem refl (wellFormed : t.WellFormed book) : t.Peers book t := ⟨wellFormed, wellFormed, rfl⟩

/-- Peers recognize the same inputs: a class recognizes what the type under it does. -/
theorem conforms (peers : t.Peers book t') (input : Json) : t.conforms input = t'.conforms input := by
  rw [← peers.left.conforms_bare, peers.bare, peers.right.conforms_bare]

theorem normalize (peers : t.Peers book t') (input : Json) : t.normalize input = t'.normalize input := by
  rw [← peers.left.normalize_bare, peers.bare, peers.right.normalize_bare]

/-- A class is a peer of its schema. -/
theorem ofClass {className : String} {inner : TypeTree ω} {construct : Json → Except String (Product ω)}
    (wellFormed : (TypeTree.ofClass className inner construct).WellFormed book) :
    (TypeTree.ofClass className inner construct).Peers book inner := by
  cases wellFormed with
  | ofClass listed inside => exact ⟨.ofClass listed inside, inside, rfl⟩

theorem array (peers : t.Peers book t') : (TypeTree.array t).Peers book (.array t') :=
  ⟨.array peers.left, .array peers.right, congrArg TypeTree.array peers.bare⟩

theorem union {members members' : List (TypeTree ω)} (each : List.Forall₂ (Peers book) members members') :
    (TypeTree.union members).Peers book (.union members') where
  left := .union (left_of_forall₂ each fun _ _ => left)
  right := .union (left_of_forall₂ each.flip fun _ _ => right)
  bare := by
    rw [TypeTree.bare, TypeTree.bare, bareMembers_eq_map, bareMembers_eq_map]
    exact congrArg TypeTree.union (forall₂_eq_iff.mp (each.imp fun _ _ => bare))

theorem record {props props' : List (Property (TypeTree ω))} (nodup : (props.map Property.name).Nodup)
    (reserved : attrsKey ∉ props.map Property.name) (each : List.Forall₂ (PropPeers book) props props')
    (name name' : Option String) (attrs : Bool) :
    (TypeTree.record name attrs props).Peers book (.record name' attrs props') := by
  have names : props.map Property.name = props'.map Property.name :=
    forall₂_eq_iff.mp (each.imp fun _ _ peers => congrArg Prod.fst peers.1)
  have types : props.map (Property.map TypeTree.bare) = props'.map (Property.map TypeTree.bare) := by
    refine forall₂_eq_iff.mp (each.imp fun p q peers => ?_)
    obtain ⟨sameName, sameKind⟩ := Prod.mk.inj peers.1
    rw [Property.map, Property.map, sameName, sameKind, peers.2.bare]
  refine ⟨.record nodup reserved ?_, .record (names ▸ nodup) (names ▸ reserved) ?_, ?_⟩
  · exact left_of_forall₂ each fun _ _ peers => peers.2.left
  · exact left_of_forall₂ each.flip fun _ _ peers => peers.2.right
  · rw [TypeTree.bare, TypeTree.bare, bareProps_eq_map, bareProps_eq_map, types]

end Peers

theorem propShapes_eq_side (optional : Bool) (props : List (Property (TypeTree ω))) :
    propShapes optional props = Shape.side optional (props.map (.map shape)) := by
  induction props with
  | nil => rfl
  | cons p rest ih => rw [propShapes, ih, List.map_cons, Property.map, Shape.side]

theorem shape_record (name : Option String) (attrs : Bool) (props : List (Property (TypeTree ω))) :
    (record name attrs props).shape = .ofDeclared name attrs (props.map (.map shape)) := by
  rw [shape, propShapes_eq_side, propShapes_eq_side, Shape.ofDeclared]

end TypeTree

namespace Shape

open TypeTree (Peers PropPeers)

/-- Two shapes of types over a book that are the same but for their classes and the names of their object types. -/
def Layered (book : Book ω) : Shape ω → Shape ω → Prop := Relation.Map (Peers book) TypeTree.shape TypeTree.shape

/-- Two such shapes of object types, which both declare `attrs` or both do not. -/
def RecordLayered (book : Book ω) (name name' : Option String) (attrs : Bool) (s s' : Shape ω) : Prop :=
  ∃ props props', (TypeTree.record name attrs props).Peers book (.record name' attrs props') ∧
    (TypeTree.record name attrs props).shape = s ∧ (TypeTree.record name' attrs props').shape = s'

/-- Lists of images of what is related are images of lists that are related. -/
theorem exists_forall₂_of_map {α β γ δ : Type} {R : α → β → Prop} {f : α → γ} {g : β → δ} {cs : List γ} {ds : List δ}
    (each : List.Forall₂ (Relation.Map R f g) cs ds) :
    ∃ as bs, List.Forall₂ R as bs ∧ as.map f = cs ∧ bs.map g = ds := by
  induction each with
  | nil => exact ⟨[], [], .nil, rfl, rfl⟩
  | cons first _ ih =>
    obtain ⟨a, b, related, rfl, rfl⟩ := first
    obtain ⟨as, bs, others, rfl, rfl⟩ := ih
    exact ⟨a :: as, b :: bs, .cons related others, rfl, rfl⟩

namespace Layered

variable {book : Book ω} {s s' : Shape ω}

theorem scalar (kind : Scalar) : Layered book (.scalar kind) (.scalar kind) :=
  ⟨.scalar kind, .scalar kind, .refl (.scalar kind), rfl, rfl⟩

theorem array (layered : s.Layered book s') : (Shape.array s).Layered book (.array s') := by
  obtain ⟨t, t', peers, rfl, rfl⟩ := layered
  exact ⟨_, _, peers.array, rfl, rfl⟩

theorem oneOf {members members' : List (Shape ω)} (each : List.Forall₂ (Layered book) members members') :
    (Shape.oneOf members).Layered book (.oneOf members') := by
  obtain ⟨ts, ts', peers, rfl, rfl⟩ := exists_forall₂_of_map each
  exact ⟨_, _, .union peers, by rw [TypeTree.shape, TypeTree.shapes_eq_map], by
    rw [TypeTree.shape, TypeTree.shapes_eq_map]⟩

end Layered

namespace RecordLayered

variable {book : Book ω} {name name' : Option String} {attrs : Bool} {s s' : Shape ω}

theorem layered (record : RecordLayered book name name' attrs s s') : s.Layered book s' := by
  obtain ⟨props, props', peers, rfl, rfl⟩ := record
  exact ⟨_, _, peers, rfl, rfl⟩

theorem ofDeclared {decls decls' : List (Property (Shape ω))} (nodup : (decls.map Property.name).Nodup)
    (reserved : ∀ decl ∈ decls, decl.name ≠ attrsKey)
    (each : List.Forall₂ (fun p q => p.head = q.head ∧ p.type.Layered book q.type) decls decls')
    (name name' : Option String) (attrs : Bool) :
    RecordLayered book name name' attrs (.ofDeclared name attrs decls) (.ofDeclared name' attrs decls') := by
  have mapped : List.Forall₂ (Relation.Map (PropPeers book) (.map TypeTree.shape) (.map TypeTree.shape))
      decls decls' := by
    refine each.imp fun p q ⟨heads, t, t', peers, left, right⟩ => ?_
    exact ⟨⟨p.name, t, p.optional⟩, ⟨q.name, t', q.optional⟩, ⟨heads, peers⟩, by rw [Property.map, left],
      by rw [Property.map, right]⟩
  obtain ⟨props, props', peers, rfl, rfl⟩ := exists_forall₂_of_map mapped
  have names : (props.map (Property.map TypeTree.shape)).map Property.name = props.map Property.name := by
    rw [List.map_map]
    rfl
  have unreserved : attrsKey ∉ props.map Property.name := by
    rw [← names]
    intro known
    obtain ⟨decl, member, same⟩ := List.mem_map.mp known
    exact reserved decl member same
  exact ⟨props, props', .record (names ▸ nodup) unreserved peers name name' attrs, TypeTree.shape_record _ _ _,
    TypeTree.shape_record _ _ _⟩

end RecordLayered

end Shape

namespace TypeTree

variable {book : Book ω} {t t' : TypeTree ω}

/-- A type accepts wherever an input stands, and makes the same of it. -/
theorem WellFormed.uniform (wellFormed : t.WellFormed book) : t.shape.Uniform := by
  induction wellFormed with
  | scalar kind => exact (Shape.leaf_scalar kind).uniform
  | @stock kind _ => exact kind.leaf_shape.uniform
  | array inner ih => exact Shape.array_uniform inner.reporting ih
  | @union members _ ih =>
    intro input here there
    rw [shape, shapes_eq_map, Shape.validate_oneOf, Shape.validate_oneOf]
    exact Shape.union_uniform (List.forall_mem_map.mpr ih) input here there
  | @record name attrs props _ _ each ih =>
    have reporting (optional : Bool) : ∀ prop ∈ propShapes optional props, prop.2.Reporting := by
      intro prop listed
      obtain ⟨p, member, _, rfl⟩ := mem_propShapes.mp listed
      exact (each p member).reporting
    have uniform (optional : Bool) : ∀ prop ∈ propShapes optional props, prop.2.Uniform := by
      intro prop listed
      obtain ⟨p, member, _, rfl⟩ := mem_propShapes.mp listed
      exact ih p member
    exact Shape.ofProps_uniform (reporting false) (reporting true) (uniform false) (uniform true) name attrs
  | ofClass _ _ ih => exact Shape.ofClass_uniform ih _ _ _

end TypeTree

end Conform
