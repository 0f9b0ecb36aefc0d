import Conform.Proofs.Inlining
import Conform.Proofs.Layered

namespace Conform

variable {ω : Type}

/-- The second type has related names in the places of the references of the first. -/
inductive TypeExpr.Renamed (R : String → String → Prop) : TypeExpr → TypeExpr → Prop
  | scalar (kind : Scalar) : Renamed R (.scalar kind) (.scalar kind)
  | reference {name other : String} (related : R name other) : Renamed R (.reference name) (.reference other)
  | array {a b : TypeExpr} : Renamed R a b → Renamed R (.array a) (.array b)
  | union {members others : List TypeExpr} (length : members.length = others.length)
      (each : ∀ pair ∈ members.zip others, Renamed R pair.1 pair.2) : Renamed R (.union members) (.union others)
  | literal {props others : List (Property TypeExpr)} (heads : props.map Property.head = others.map Property.head)
      (each : ∀ pair ∈ props.zip others, Renamed R pair.1.type pair.2.type) :
      Renamed R (.literal props) (.literal others)
  | generic (tag : String) {a b : TypeExpr} : Renamed R a b → Renamed R (.generic tag a) (.generic tag b)
  | parameterized (tag : String) {a b : TypeExpr} :
      Renamed R a b → Renamed R (.parameterized tag a) (.parameterized tag b)

/-- The second schema has related names in the places of the references of the first. -/
structure Schema.Renamed (R : String → String → Prop) (s t : Schema) : Prop where
  named : s.name = t.name
  heads : s.props.map Property.head = t.props.map Property.head
  each : ∀ pair ∈ s.props.zip t.props, pair.1.type.Renamed R pair.2.type

theorem forall_mem_zip_self {α : Type} {P : α × α → Prop} {as : List α} (each : ∀ a ∈ as, P (a, a)) :
    ∀ pair ∈ as.zip as, P pair := by
  intro pair member
  obtain ⟨i, _, rfl⟩ := List.mem_iff_getElem.mp member
  rw [List.getElem_zip]
  exact each _ (List.getElem_mem _)

theorem TypeExpr.Renamed.refl {R : String → String → Prop} (same : ∀ name, R name name) (type : TypeExpr) :
    type.Renamed R type := by
  induction type using TypeExpr.induction with
  | scalar kind => exact .scalar kind
  | reference name => exact .reference (same name)
  | array _ ih => exact .array ih
  | union _ ih => exact .union rfl (forall_mem_zip_self ih)
  | literal _ ih => exact .literal rfl (forall_mem_zip_self ih)
  | generic tag _ ih => exact .generic tag ih
  | parameterized tag _ ih => exact .parameterized tag ih

/-- A factory makes shapes of types that are peers of shapes of types that are peers. -/
def Factory.Keeps (book : Book ω) (make other : Factory ω) : Prop :=
  ∀ s s' : Shape ω, s.Layered book s' → (make s).Layered book (other s')

/-- Two scopes in which related names stand for types that are peers. -/
structure Scope.Layered (book : Book ω) (R : String → String → Prop) (scope other : Scope ω) : Prop where
  names : ∀ name name', R name name' → Matches (Shape.Layered book) (scope.resolve name) (other.resolve name')
  factories : ∀ tag, Matches (Factory.Keeps book) (scope.factory tag) (other.factory tag)

section Object

variable {book : Book ω} {scope other : Scope ω} {props others : List (Property TypeExpr)}

/-- Properties whose types stand for related shapes have related declarations. -/
theorem declarations_forall₂ {R : Shape ω → Shape ω → Prop}
    (heads : props.map Property.head = others.map Property.head)
    (each : ∀ pair ∈ props.zip others, Matches R (pair.1.type.elaborate scope) (pair.2.type.elaborate other)) :
    List.Forall₂ (fun p q => p.head = q.head ∧ R p.type q.type) (scope.declarations props)
      (other.declarations others) := by
  have sameHeads := TypeTree.forall₂_eq_iff.mpr heads
  have paired : List.Forall₂ (fun p q => p.head = q.head ∧ Matches R (p.type.elaborate scope) (q.type.elaborate other))
      props others :=
    List.forall₂_iff_zip.mpr ⟨sameHeads.length_eq, fun listed => ⟨List.forall₂_zip sameHeads listed, each _ listed⟩⟩
  refine List.rel_filterMap (fun p q ⟨head, related⟩ => ?_) paired
  obtain ⟨name, optional⟩ := Prod.mk.inj head
  have reserved : p.isAttrs = q.isAttrs := by rw [Property.isAttrs, Property.isAttrs, name]
  rw [Scope.declaration?, Scope.declaration?, reserved]
  split
  · exact .none
  · generalize p.type.elaborate scope = result, q.type.elaborate other = result' at related
    cases related with
    | error e => exact .none
    | ok here => exact .some ⟨head, here⟩

theorem names_declarations_sublist (scope : Scope ω) (props : List (Property TypeExpr)) :
    ((scope.declarations props).map Property.name).Sublist (props.map Property.name) := by
  induction props with
  | nil => exact .slnil
  | cons p rest ih =>
    rw [Scope.declarations, List.filterMap_cons, List.map_cons]
    cases found : scope.declaration? p with
    | none => exact ih.cons _
    | some decl =>
      rw [List.map_cons, (of_declaration? found).2]
      exact ih.cons_cons _

/-- Object types of properties that stand for peers stand for peers, whatever they are called. -/
theorem recordLayered_of_object (heads : props.map Property.head = others.map Property.head)
    (nodup : (props.map Property.name).Nodup)
    (each : ∀ pair ∈ props.zip others,
      Matches (Shape.Layered book) (pair.1.type.elaborate scope) (pair.2.type.elaborate other))
    {label label' : Option String} {s s' : Shape ω} (made : scope.object label props = .ok s)
    (made' : other.object label' others = .ok s') :
    Shape.RecordLayered book label label' (declaresAttrs props) s s' := by
  obtain ⟨_, rfl⟩ := eq_ofDeclared_of_object made
  obtain ⟨_, rfl⟩ := eq_ofDeclared_of_object made'
  rw [← declaresAttrs_of_heads heads]
  exact .ofDeclared (nodup.sublist (names_declarations_sublist scope props)) (declarations_unreserved scope props)
    (declarations_forall₂ heads each) label label' _

/-- Objects whose properties match one by one elaborate to layered records, or fail alike. -/
theorem object_matches (heads : props.map Property.head = others.map Property.head)
    (nodup : (props.map Property.name).Nodup)
    (each : ∀ pair ∈ props.zip others,
      Matches (Shape.Layered book) (pair.1.type.elaborate scope) (pair.2.type.elaborate other))
    (label : Option String) : Matches (Shape.RecordLayered book label label (declaresAttrs props))
      (scope.object label props) (other.object label others) := by
  have alike : Matches (fun _ _ => True) (scope.object label props) (other.object label others) :=
    assemble_matches heads (elaborateProps_matches heads each _ false) (elaborateProps_matches heads each _ true) label
      (fun _ _ _ => trivial) (fun _ _ _ => trivial) (fun _ _ _ _ _ _ => trivial) fun _ _ _ => trivial
  exact alike.refine fun s s' made made' _ => recordLayered_of_object heads nodup each made made'

end Object

section Renamed

variable {book : Book ω} {R : String → String → Prop} {scope other : Scope ω}

/-- A type and one with related names in it stand for peers, or for nothing for the same reason. -/
theorem TypeExpr.Renamed.elaborate_matches (layered : scope.Layered book R other) {a b : TypeExpr}
    (renamed : a.Renamed R b) (distinct : a.Distinct) :
    Matches (Shape.Layered book) (a.elaborate scope) (b.elaborate other) := by
  have made {tag : String} {a b : TypeExpr}
      (argument : Matches (Shape.Layered book) (a.elaborate scope) (b.elaborate other)) :
      Matches (Shape.Layered book) (do let make ← scope.factory tag; (a.elaborate scope).map make)
        (do let make ← other.factory tag; (b.elaborate other).map make) :=
    (layered.factories tag).bind fun make make' keeps => argument.map keeps
  induction renamed with
  | scalar kind =>
    rw [elaborate, elaborate]
    exact .ok (.scalar kind)
  | @reference name name' related =>
    rw [elaborate.eq_def scope (.reference name), elaborate.eq_def other (.reference name')]
    exact layered.names name name' related
  | array _ ih =>
    rw [elaborate, elaborate]
    exact (ih distinct).map fun s s' => .array
  | @union members others length each ih =>
    have empty : members.isEmpty = others.isEmpty := by
      rw [Bool.eq_iff_iff, List.isEmpty_iff_length_eq_zero, List.isEmpty_iff_length_eq_zero, length]
    rw [elaborate, elaborate, empty]
    split
    · exact .error _
    · refine (elaborateMembers_matches ?_).map fun as bs => .oneOf
      refine List.forall₂_iff_zip.mpr ⟨length, fun listed => ih _ listed ?_⟩
      exact membersDistinct_iff.mp distinct _ (List.of_mem_zip listed).1
  | literal heads each ih =>
    obtain ⟨nodup, inner⟩ := distinct
    rw [elaborate_literal_eq_object, elaborate_literal_eq_object]
    have each := fun pair listed => ih pair listed (propsDistinct_iff.mp inner _ (List.of_mem_zip listed).1)
    exact (object_matches heads nodup each none).refine fun s s' _ _ record => record.layered
  | generic tag _ ih | parameterized tag _ ih =>
    rw [elaborate, elaborate]
    exact made (ih distinct)

/-- Schemas that differ in layered names elaborate to layered shapes, or fail alike. -/
theorem Schema.Renamed.elaborate_matches (layered : scope.Layered book R other) {s t : Schema} (renamed : s.Renamed R t)
    (distinct : s.Distinct) : Matches (Shape.Layered book) (s.elaborate scope) (t.elaborate other) := by
  obtain ⟨nodup, inner⟩ := distinct
  have each := fun pair listed => (renamed.each pair listed).elaborate_matches layered
    (TypeExpr.propsDistinct_iff.mp inner _ (List.of_mem_zip listed).1)
  rw [elaborate_eq_object, elaborate_eq_object, ← renamed.named]
  exact (object_matches renamed.heads nodup each _).refine fun s s' _ _ record => record.layered

end Renamed

/-- The scope in which one name stands for a shape and no other for anything, with the factory of arrays. -/
def Scope.only (hole : String) (s : Shape ω) : Scope ω where
  resolve name := if name = hole then .ok s else .error (.unknownType name)
  factory tag := if tag = arrayTag then .ok .array else .error (.unknownFactory tag)

/-- A factory that puts its argument in the place of a name in a type, or in an object type with any label. -/
def Factory.Typed (make : Factory ω) : Prop :=
  (∃ (type : TypeExpr) (hole : String), type.Distinct ∧ ∀ s, type.elaborate (.only hole s) = .ok (make s)) ∨
  ∃ (props : List (Property TypeExpr)) (hole : String) (label : Shape ω → Option String),
    (TypeExpr.literal props).Distinct ∧ ∀ s, (Scope.only hole s).object (label s) props = .ok (make s)

section Typed

variable {book : Book ω}

theorem Scope.only_layered {s s' : Shape ω} (layered : s.Layered book s') (hole : String) :
    (Scope.only hole s).Layered book Eq (.only hole s') where
  names name name' same := by
    subst same
    simp only [only]
    split
    · exact .ok layered
    · exact .error _
  factories tag := by
    simp only [only]
    split
    · exact .ok fun s s' => .array
    · exact .error _

/-- A factory with a type for its result makes peers of peers. -/
theorem Factory.Typed.keeps {make : Factory ω} (typed : Factory.Typed make) : Factory.Keeps book make make := by
  intro s s' layered
  have refl (type : TypeExpr) (hole : String) (distinct : type.Distinct) :
      Matches (Shape.Layered book) (type.elaborate (.only hole s)) (type.elaborate (.only hole s')) :=
    (TypeExpr.Renamed.refl Eq.refl type).elaborate_matches (Scope.only_layered layered hole) distinct
  rcases typed with ⟨type, hole, distinct, made⟩ | ⟨props, hole, label, distinct, made⟩
  · have related := refl type hole distinct
    rw [made, made] at related
    cases related with
    | ok here => exact here
  · obtain ⟨nodup, inner⟩ := distinct
    refine (recordLayered_of_object rfl nodup (forall_mem_zip_self fun p member => ?_) (made s) (made s')).layered
    exact refl p.type hole (TypeExpr.propsDistinct_iff.mp inner p member)

end Typed

end Conform
