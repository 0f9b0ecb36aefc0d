import Conform.Proofs.Sound

namespace Conform

variable {ω : Type}

/-- A change of errors that leaves alone what a type gets wrong by itself: only a lookup that failed
may come to say something else. -/
structure SetupError.OfLookups (change : SetupError → SetupError) : Prop where
  emptySchema : ∀ name, change (.emptySchema name) = .emptySchema name
  illegalType : ∀ found, change (.illegalType found) = .illegalType found
  inProperty : ∀ context property cause,
    change (.inProperty context property cause) = .inProperty context property (change cause)

theorem SetupError.ofLookups_id : OfLookups id where
  emptySchema _ := rfl
  illegalType _ := rfl
  inProperty _ _ _ := rfl

variable {change : SetupError → SetupError} {scope other : Scope ω}

theorem assemble_mapError (ofLookups : SetupError.OfLookups change) (name : Option String)
    (props : List (Property TypeExpr)) (required optional : Except SetupError (List (String × Shape ω))) :
    assemble name props (required.mapError change) (optional.mapError change) =
      (assemble name props required optional).mapError change := by
  cases someRequired : (props.filter fun p => !p.isAttrs).any (!·.optional) with
  | true =>
    cases someOptional : (props.filter fun p => !p.isAttrs).any (·.optional) with
    | true =>
      simp only [assemble, someRequired, someOptional]
      cases required <;> cases optional <;> rfl
    | false =>
      simp only [assemble, someRequired, someOptional]
      cases required <;> rfl
  | false =>
    cases someOptional : (props.filter fun p => !p.isAttrs).any (·.optional) with
    | true =>
      simp only [assemble, someRequired, someOptional]
      cases optional <;> rfl
    | false =>
      simp only [assemble, someRequired, someOptional]
      exact congrArg Except.error (ofLookups.emptySchema _).symm

namespace TypeExpr

theorem elaborateMembers_mapError {members : List TypeExpr}
    (each : ∀ member ∈ members, member.elaborate other = (member.elaborate scope).mapError change) :
    elaborateMembers other members = (elaborateMembers scope members).mapError change := by
  induction members with
  | nil => rfl
  | cons member rest ih =>
    obtain ⟨here, later⟩ := List.forall_mem_cons.mp each
    rw [elaborateMembers, elaborateMembers, here, ih later, mapError_bind]
    simp only [mapError_bind]
    rfl

/-- The reserved property is not looked at, so it may differ. -/
theorem elaborateProps_mapError (ofLookups : SetupError.OfLookups change) {props : List (Property TypeExpr)}
    (each : ∀ p ∈ props, p.isAttrs = false → p.type.elaborate other = (p.type.elaborate scope).mapError change)
    (context : String) (optional : Bool) :
    elaborateProps other context optional props = (elaborateProps scope context optional props).mapError change := by
  induction props with
  | nil => rfl
  | cons p rest ih =>
    obtain ⟨name, type, isOptional⟩ := p
    obtain ⟨here, later⟩ := List.forall_mem_cons.mp each
    by_cases skipped : name = attrsKey ∨ isOptional ≠ optional
    · rw [elaborateProps_skip skipped, elaborateProps_skip skipped, ih later]
    · have declared : Property.isAttrs ⟨name, type, isOptional⟩ = false := by
        simpa [Property.isAttrs] using (not_or.mp skipped).1
      rw [elaborateProps, elaborateProps, if_neg skipped, if_neg skipped, here declared, ih later]
      cases type.elaborate scope with
      | error e => exact congrArg Except.error (ofLookups.inProperty context name e).symm
      | ok shape => cases elaborateProps scope context optional rest <;> rfl

/-- A type is elaborated alike in two scopes that answer alike, up to what a failed lookup says: no
name counts but those that the type mentions. -/
theorem elaborate_mapError (ofLookups : SetupError.OfLookups change) (type : TypeExpr)
    (resolve : ∀ name, type.Mentions name → other.resolve name = (scope.resolve name).mapError change)
    (factory : ∀ tag, other.factory tag = (scope.factory tag).mapError change) :
    type.elaborate other = (type.elaborate scope).mapError change := by
  induction type using TypeExpr.induction with
  | scalar kind => rfl
  | reference name => exact resolve name (.self _)
  | array element ih =>
    have inner := ih fun name mentioned => resolve name (.element mentioned)
    rw [elaborate, elaborate, inner, mapError_map]
  | union members ih =>
    have each : ∀ member ∈ members, member.elaborate other = (member.elaborate scope).mapError change :=
      fun member listed => ih member listed fun name mentioned => resolve name (.member listed mentioned)
    rw [elaborate, elaborate]
    split
    · exact congrArg Except.error (ofLookups.illegalType _).symm
    · rw [elaborateMembers_mapError each, mapError_map]
  | literal props ih =>
    have each : ∀ p ∈ props, p.isAttrs = false → p.type.elaborate other = (p.type.elaborate scope).mapError change :=
      fun p listed declared => ih p listed fun name mentioned => resolve name (.prop listed declared mentioned)
    rw [elaborate, elaborate, elaborateProps_mapError ofLookups each, elaborateProps_mapError ofLookups each,
      assemble_mapError ofLookups]
  | generic tag argument ih =>
    have inner := ih fun name mentioned => resolve name (.generic tag mentioned)
    rw [elaborate, elaborate, factory, inner, mapError_bind]
    simp only [mapError_map]
  | parameterized tag argument ih =>
    have inner := ih fun name mentioned => resolve name (.parameterized tag mentioned)
    rw [elaborate, elaborate, factory, inner, mapError_bind]
    simp only [mapError_map]

end TypeExpr

namespace Schema

/-- A schema sees its scope through the names it mentions and the factories. -/
theorem elaborate_mapError (ofLookups : SetupError.OfLookups change) (s : Schema)
    (resolve : ∀ name, s.Mentions name → other.resolve name = (scope.resolve name).mapError change)
    (factory : ∀ tag, other.factory tag = (scope.factory tag).mapError change) :
    s.elaborate other = (s.elaborate scope).mapError change := by
  have each : ∀ p ∈ s.props, p.isAttrs = false →
      p.type.elaborate other = (p.type.elaborate scope).mapError change := by
    intro p listed declared
    have answers := fun name mentioned => resolve name (.prop listed declared mentioned)
    exact p.type.elaborate_mapError ofLookups answers factory
  rw [elaborate, elaborate, TypeExpr.elaborateProps_mapError ofLookups each,
    TypeExpr.elaborateProps_mapError ofLookups each, assemble_mapError ofLookups]

/-- A schema stands for one shape wherever the names that it mentions do. -/
theorem elaborate_congr (s : Schema) (resolve : ∀ name, s.Mentions name → other.resolve name = scope.resolve name)
    (factory : ∀ tag, other.factory tag = scope.factory tag) : s.elaborate other = s.elaborate scope := by
  have same : s.elaborate other = (s.elaborate scope).mapError id := s.elaborate_mapError SetupError.ofLookups_id
    (fun name mentioned => (resolve name mentioned).trans (mapError_id _).symm)
    (fun tag => (factory tag).trans (mapError_id _).symm)
  rwa [mapError_id] at same

end Schema

end Conform
