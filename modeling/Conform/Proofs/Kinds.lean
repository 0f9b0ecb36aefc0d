import Conform.Proofs.LastDeclaration
import Conform.Proofs.Shape.Composed

namespace Conform

variable {ω : Type}

/-- A kind of shapes that types do not leave: what a type stands for is of the kind where the shapes are to
which its names refer and those that its factories make. -/
structure Shape.Kind (P : Shape ω → Prop) : Prop where
  scalar : ∀ kind, P (.scalar kind)
  array : ∀ s : Shape ω, P s → P (.array s)
  union : ∀ members : List (Shape ω), (∀ member ∈ members, P member) → P (.union members)
  record : ∀ (label : Option String) (attrs : Bool) (decls : List (Property (Shape ω))),
    (∀ p ∈ decls, p.name ≠ attrsKey) → (∀ p ∈ decls, P p.type) → P (.ofDeclared label attrs decls)

/-- Every name in a scope stands for a shape of a kind, and so does what a factory makes of one. -/
structure Scope.Of (scope : Scope ω) (P : Shape ω → Prop) : Prop where
  resolved : ∀ name shape, scope.resolve name = .ok shape → P shape
  made : ∀ tag make, scope.factory tag = .ok make → ∀ s : Shape ω, P s → P (make s)

/-- What was registered leaves a kind of shapes nowhere. -/
def Event.Of (P : Shape ω → Prop) : Event ω → Prop
  | registered (.schema _) => True
  | registered (.ofClass c) => ∀ inner attrs, P inner → P (.ofClass c.className inner attrs c.construct)
  | registered (.shape _ given) => P given
  | factory _ make => ∀ s : Shape ω, P s → P (make s)

/-- A union of one member is that member, and every other one a union of its members. -/
theorem Shape.Kind.oneOf {P : Shape ω → Prop} (kind : Shape.Kind P) {members : List (Shape ω)}
    (each : ∀ member ∈ members, P member) : P (Shape.oneOf members) := by
  match members with
  | [] => exact kind.union _ each
  | [only] => exact each only List.mem_cons_self
  | _ :: _ :: _ => exact kind.union _ each

namespace Shape.Composed

theorem ofParts {label : Option String} {required optional : List (String × Shape ω)}
    (first : ∀ prop ∈ required, prop.2.Composed) (second : ∀ prop ∈ optional, prop.2.Composed) :
    (ofParts label required optional).Composed := by
  cases required with
  | nil => exact .object second
  | cons => cases optional with
    | nil => exact .object first
    | cons => exact .intersection (.object first) (.object second)

theorem kind : Kind (@Composed ω) where
  scalar := .scalar
  array _ inner := .array inner
  union _ each := .union each
  record label attrs decls _ each := by
    have within (optional : Bool) : ∀ prop ∈ side optional decls, prop.2.Composed := by
      intro prop listed
      obtain ⟨p, member, _, rfl⟩ := mem_side.mp listed
      exact each p member
    have parts : (Shape.ofParts label (side false decls) (side true decls)).Composed := ofParts (within false) (within true)
    cases attrs with
    | false => exact parts
    | true => exact .withAttrs parts

end Shape.Composed

section Elaborate

variable {scope : Scope ω} {P : Shape ω → Prop}

theorem TypeExpr.of_elaborateMembers {members : List TypeExpr}
    (each : ∀ member ∈ members, ∀ shape, member.elaborate scope = .ok shape → P shape)
    {shapes : List (Shape ω)} (elaborated : elaborateMembers scope members = .ok shapes) :
    ∀ shape ∈ shapes, P shape := by
  induction members generalizing shapes with
  | nil =>
    cases elaborated
    exact fun _ member => nomatch member
  | cons member rest ih =>
    obtain ⟨eachFirst, eachRest⟩ := List.forall_mem_cons.mp each
    simp only [elaborateMembers, except_bind_eq_ok_iff] at elaborated
    obtain ⟨shape, first, others, later, equal⟩ := elaborated
    cases equal
    exact List.forall_mem_cons.mpr ⟨eachFirst shape first, ih eachRest later⟩

theorem elaborate_of_declaration? {p : Property TypeExpr} {decl : Property (Shape ω)}
    (found : scope.declaration? p = some decl) : p.type.elaborate scope = .ok decl.type := by
  cases declared : p.isAttrs with
  | true =>
    rw [declaration?_of_isAttrs declared] at found
    cases found
  | false =>
    rw [Scope.declaration?, declared, if_neg Bool.false_ne_true] at found
    obtain ⟨shape, elaborated, rfl⟩ := Option.map_eq_some_iff.mp found
    cases result : p.type.elaborate scope with
    | ok made =>
      rw [result] at elaborated
      cases elaborated
      rfl
    | error e =>
      rw [result] at elaborated
      cases elaborated

variable (kind : Shape.Kind P)

include kind in
/-- The properties that an object is made of are elaborated one by one, so it is of a kind when they
are. -/
theorem of_object {label : Option String} {props : List (Property TypeExpr)} {shape : Shape ω}
    (each : ∀ p ∈ props, ∀ shape, p.type.elaborate scope = .ok shape → P shape)
    (made : scope.object label props = .ok shape) : P shape := by
  obtain ⟨_, rfl⟩ := eq_ofDeclared_of_object made
  refine kind.record _ _ _ (declarations_unreserved scope props) fun decl member => ?_
  obtain ⟨p, inProps, found⟩ := List.mem_filterMap.mp member
  exact each p inProps _ (elaborate_of_declaration? found)

variable (all : scope.Of P)

include kind all in
/-- What a type elaborates to is of every kind that its scope is of. -/
theorem TypeExpr.of_elaborate (type : TypeExpr) : ∀ shape, type.elaborate scope = .ok shape → P shape := by
  induction type using TypeExpr.induction with
  | scalar scalarKind =>
    intro shape elaborated
    cases elaborated
    exact kind.scalar scalarKind
  | reference name => exact all.resolved name
  | array element ih =>
    intro shape elaborated
    obtain ⟨inner, first, rfl⟩ := except_map_eq_ok_iff.mp elaborated
    exact kind.array inner (ih inner first)
  | union members ih =>
    intro shape elaborated
    rw [elaborate] at elaborated
    split at elaborated
    · cases elaborated
    · obtain ⟨shapes, each, rfl⟩ := except_map_eq_ok_iff.mp elaborated
      exact kind.oneOf (of_elaborateMembers ih each)
  | literal props ih =>
    intro shape elaborated
    rw [TypeExpr.elaborate_literal_eq_object] at elaborated
    exact of_object kind ih elaborated
  | generic tag argument ih | parameterized tag argument ih =>
    intro shape elaborated
    obtain ⟨make, found, mapped⟩ := except_bind_eq_ok_iff.mp elaborated
    obtain ⟨inner, first, rfl⟩ := except_map_eq_ok_iff.mp mapped
    exact all.made tag make found inner (ih inner first)

include all in
theorem Target.of_elaborate (target : Target) : ∀ shape, target.elaborate scope = .ok shape → P shape := by
  induction target with
  | named name => exact all.resolved name
  | generic tag argument ih =>
    intro shape elaborated
    obtain ⟨make, found, mapped⟩ := except_bind_eq_ok_iff.mp elaborated
    obtain ⟨inner, first, rfl⟩ := except_map_eq_ok_iff.mp mapped
    exact all.made tag make found inner (ih inner first)

end Elaborate

namespace Registry

variable {r : Registry ω} {P : Shape ω → Prop}

/-- A slot keeps the kind of the scope when its shape is of it. -/
theorem of_setSlot (all : r.scope.Of P) (name : String) {slot : Slot ω}
    (known : ∀ shape attrs, slot = .resolved shape attrs → P shape) : (r.setSlot name slot).scope.Of P where
  resolved other shape resolved := by
    obtain ⟨attrs, found⟩ := resolve_eq_ok_iff.mp resolved
    rw [slot?_setSlot] at found
    by_cases same : other = name
    · rw [if_pos same, Option.some.injEq] at found
      exact known shape attrs found
    · rw [if_neg same] at found
      exact all.resolved other shape (resolve_eq_ok_iff.mpr ⟨attrs, found⟩)
  made := all.made

theorem of_registerFactory (all : r.scope.Of P) {tag : String} {make : Factory ω}
    (keeps : ∀ s : Shape ω, P s → P (make s)) : (r.registerFactory tag make).scope.Of P where
  resolved := all.resolved
  made other found known := by
    simp only [scope, factory, registerFactory, Fields.get?_insert] at known
    by_cases same : other = tag
    · rw [if_pos same] at known
      cases known
      exact keeps
    · rw [if_neg same] at known
      exact all.made other found known

theorem of_empty (kind : Shape.Kind P) : (Registry.empty : Registry ω).scope.Of P where
  resolved _ _ known := by cases known
  made tag make known := by
    simp only [scope, Registry.factory, Registry.empty, Fields.get?] at known
    by_cases same : arrayTag = tag
    · rw [if_pos same] at known
      cases known
      exact kind.array
    · rw [if_neg same] at known
      cases known

/-- A schema is elaborated in the scope, so its shape is of the scope's kind. -/
theorem of_registerSchema (kind : Shape.Kind P) (all : r.scope.Of P) {s : Schema} {after : Registry ω} {shape : Shape ω}
    (done : r.registerSchema s = (after, .ok shape)) : P shape ∧ after.scope.Of P := by
  obtain ⟨_, elaborated, rfl⟩ := registerSchema_eq_ok done
  have started : (r.setSlot s.name .resolving).scope.Of P := of_setSlot all s.name fun _ _ same => by cases same
  have within : P shape := of_object kind (fun p _ => p.type.of_elaborate kind started) elaborated
  refine ⟨within, of_setSlot all s.name fun _ _ same => ?_⟩
  cases same
  exact within

/-- A setup whose registrations do not leave a kind of shapes leads to no other. -/
theorem Reached.of {events : List (Event ω)} (reached : r.Reached events) (kind : Shape.Kind P)
    (each : ∀ event ∈ events, event.Of P) : r.scope.Of P := by
  induction reached with
  | empty => exact of_empty kind
  | declare name _ ih =>
    unfold Registry.declare
    split
    · exact ih each
    · exact of_setSlot (ih each) name fun _ _ same => by cases same
  | @register r after events d _ done ih =>
    obtain ⟨here, earlier⟩ := List.forall_mem_cons.mp each
    have all := ih earlier
    cases d with
    | schema s =>
      obtain ⟨shape, schemaDone⟩ := registerSchema_of_register done
      exact (of_registerSchema kind all schemaDone).2
    | ofClass c =>
      obtain ⟨_, registered, inner, schemaDone, _, rfl⟩ := registerClass_eq_ok done
      have started : (r.setSlot c.className .resolving).scope.Of P :=
        of_setSlot all c.className fun _ _ same => by cases same
      obtain ⟨within, during⟩ := of_registerSchema kind started schemaDone
      refine of_setSlot during c.className fun _ _ same => ?_
      cases same
      exact here inner _ within
    | shape name given =>
      obtain ⟨_, rfl⟩ := registerShape_eq_ok done
      refine of_setSlot all name fun _ _ same => ?_
      cases same
      exact here
  | refuse _ failed ih =>
    rw [register_eq_error failed]
    exact ih each
  | factory tag make _ ih =>
    obtain ⟨here, earlier⟩ := List.forall_mem_cons.mp each
    exact of_registerFactory (ih earlier) here

end Registry

end Conform
