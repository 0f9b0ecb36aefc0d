import Conform.Proofs.Expansion

namespace Conform

variable {ω : Type}

namespace TypeExpr

/-- The types that a type is made of, itself included. What a declared `attrs` is said to be is not
one of them. -/
inductive Inside : TypeExpr → TypeExpr → Prop
  | self (type : TypeExpr) : Inside type type
  | element {part element : TypeExpr} : Inside part element → Inside part (.array element)
  | member {part member : TypeExpr} {members : List TypeExpr} (listed : member ∈ members) :
      Inside part member → Inside part (.union members)
  | prop {part : TypeExpr} {p : Property TypeExpr} {props : List (Property TypeExpr)} (listed : p ∈ props)
      (declared : p.isAttrs = false) : Inside part p.type → Inside part (.literal props)
  | generic {part argument : TypeExpr} (tag : String) : Inside part argument → Inside part (.generic tag argument)
  | parameterized {part argument : TypeExpr} (tag : String) :
      Inside part argument → Inside part (.parameterized tag argument)

/-- What a type asks for by itself, whatever is inside it: a name that is known, a tag that has a
factory, a union with a member, an object with a property. -/
def Admissible (known made : String → Prop) : TypeExpr → Prop
  | .scalar _ => True
  | .reference name => known name
  | .array _ => True
  | .union members => members ≠ []
  | .literal props => ∃ p ∈ props, p.isAttrs = false
  | .generic tag _ => made tag
  | .parameterized tag _ => made tag

def Sound (known made : String → Prop) (type : TypeExpr) : Prop :=
  ∀ part : TypeExpr, part.Inside type → part.Admissible known made

/-- A type mentions a name where it refers to it at any depth. -/
def Mentions (type : TypeExpr) (name : String) : Prop := (reference name).Inside type

section Sound

variable {known made : String → Prop}

theorem Sound.inside {type part : TypeExpr} (sound : type.Sound known made)
    (only : ∀ other : TypeExpr, other.Inside part → other.Inside type) : part.Sound known made :=
  fun other within => sound other (only other within)

theorem sound_scalar (kind : Scalar) : (scalar kind).Sound known made := by
  rintro _ ⟨⟩
  trivial

theorem sound_reference_iff {name : String} : (reference name).Sound known made ↔ known name := by
  constructor
  · intro sound
    exact sound _ (.self _)
  · rintro isKnown _ ⟨⟩
    exact isKnown

theorem sound_array_iff {element : TypeExpr} : (array element).Sound known made ↔ element.Sound known made := by
  constructor
  · intro sound
    exact sound.inside fun _ => .element
  · intro sound part within
    cases within with
    | self => trivial
    | element inner => exact sound part inner

theorem sound_union_iff {members : List TypeExpr} : (union members).Sound known made ↔
    members ≠ [] ∧ ∀ member ∈ members, member.Sound known made := by
  constructor
  · intro sound
    exact ⟨sound _ (.self _), fun member listed => sound.inside fun _ => .member listed⟩
  · rintro ⟨nonempty, each⟩ part within
    cases within with
    | self => exact nonempty
    | member listed inner => exact each _ listed part inner

/-- A literal is sound when it declares a property and its declared properties are. -/
theorem sound_literal_iff {props : List (Property TypeExpr)} : (literal props).Sound known made ↔
    (∃ p ∈ props, p.isAttrs = false) ∧ ∀ p ∈ props, p.isAttrs = false → p.type.Sound known made := by
  constructor
  · intro sound
    exact ⟨sound _ (.self _), fun p listed declared => sound.inside fun _ => .prop listed declared⟩
  · rintro ⟨some, each⟩ part within
    cases within with
    | self => exact some
    | prop listed declared inner => exact each _ listed declared part inner

theorem sound_generic_iff {tag : String} {argument : TypeExpr} : (generic tag argument).Sound known made ↔
    made tag ∧ argument.Sound known made := by
  constructor
  · intro sound
    exact ⟨sound _ (.self _), sound.inside fun _ => .generic tag⟩
  · rintro ⟨isMade, sound⟩ part within
    cases within with
    | self => exact isMade
    | generic _ inner => exact sound part inner

theorem sound_parameterized_iff {tag : String} {argument : TypeExpr} :
    (parameterized tag argument).Sound known made ↔ made tag ∧ argument.Sound known made := by
  constructor
  · intro sound
    exact ⟨sound _ (.self _), sound.inside fun _ => .parameterized tag⟩
  · rintro ⟨isMade, sound⟩ part within
    cases within with
    | self => exact isMade
    | parameterized _ inner => exact sound part inner

/-- Fewer names are enough for a type that mentions none of the others. -/
theorem Sound.restrict {fewer : String → Prop} {type : TypeExpr} (sound : type.Sound known made)
    (mentioned : ∀ name, type.Mentions name → fewer name) : type.Sound fewer made := by
  intro part within
  have admissible := sound part within
  cases part with
  | reference name => exact mentioned name within
  | _ => exact admissible

theorem Sound.mono {more : String → Prop} {type : TypeExpr} (sound : type.Sound known made)
    (kept : ∀ name, known name → more name) : type.Sound more made :=
  sound.restrict fun name mentioned => kept name (sound (.reference name) mentioned)

end Sound

section Elaborate

variable {scope : Scope ω}

theorem elaborateMembers_ok_iff {members : List TypeExpr} :
    (∃ shapes, elaborateMembers scope members = .ok shapes) ↔
      ∀ member ∈ members, ∃ shape, member.elaborate scope = .ok shape := by
  induction members with
  | nil => simp [elaborateMembers]
  | cons member rest ih =>
    rw [List.forall_mem_cons, ← ih]
    constructor
    · rintro ⟨shapes, elaborated⟩
      simp only [elaborateMembers, except_bind_eq_ok_iff] at elaborated
      obtain ⟨shape, first, others, later, _⟩ := elaborated
      exact ⟨⟨shape, first⟩, others, later⟩
    · rintro ⟨⟨shape, first⟩, others, later⟩
      exact ⟨shape :: others, by simp only [elaborateMembers, first, later]; rfl⟩

theorem elaborateProps_ok_iff {context : String} {optional : Bool} {props : List (Property TypeExpr)} :
    (∃ shapes, elaborateProps scope context optional props = .ok shapes) ↔
      ∀ p ∈ props, p.isAttrs = false → p.optional = optional → ∃ shape, p.type.elaborate scope = .ok shape := by
  constructor
  · rintro ⟨shapes, elaborated⟩ p listed declared same
    obtain ⟨shape, first, _⟩ := mem_elaborateProps listed declared same elaborated
    exact ⟨shape, first⟩
  · intro each
    induction props with
    | nil => exact ⟨[], rfl⟩
    | cons p rest ih =>
      obtain ⟨name, type, isOptional⟩ := p
      obtain ⟨here, later⟩ := List.forall_mem_cons.mp each
      obtain ⟨others, elaborated⟩ := ih later
      by_cases skipped : name = attrsKey ∨ isOptional ≠ optional
      · exact ⟨others, by rw [elaborateProps_skip skipped, elaborated]⟩
      · obtain ⟨reserved, other⟩ := not_or.mp skipped
        obtain ⟨shape, first⟩ := here (by simp [Property.isAttrs, reserved]) (not_not.mp other)
        refine ⟨(name, shape) :: others, ?_⟩
        rw [elaborateProps, if_neg skipped, first, elaborated]
        rfl

end Elaborate

end TypeExpr

/-- A record declares some property besides the reserved one. -/
theorem exists_declared_of_assemble {name : Option String} {props : List (Property TypeExpr)}
    {required optional : Except SetupError (List (String × Shape ω))} {shape : Shape ω}
    (assembled : assemble name props required optional = .ok shape) : ∃ p ∈ props, p.isAttrs = false := by
  by_contra none
  have empty : props.filter (fun p => !p.isAttrs) = [] := by
    refine List.filter_eq_nil_iff.mpr fun p listed declared => none ⟨p, listed, ?_⟩
    simpa using declared
  simp only [assemble, empty, List.any_nil] at assembled
  cases assembled

theorem exists_assemble {name : Option String} {props : List (Property TypeExpr)}
    (some : ∃ p ∈ props, p.isAttrs = false) (required optional : List (String × Shape ω)) :
    ∃ shape, assemble name props (.ok required) (.ok optional) = .ok shape := by
  obtain ⟨p, listed, declared⟩ := some
  have kept : p ∈ props.filter fun p => !p.isAttrs := List.mem_filter.mpr ⟨listed, by simp [declared]⟩
  cases someRequired : (props.filter fun p => !p.isAttrs).any (!·.optional) with
  | true =>
    cases someOptional : (props.filter fun p => !p.isAttrs).any (·.optional) with
    | true => exact ⟨_, by simp only [assemble, someRequired, someOptional]; rfl⟩
    | false => exact ⟨_, by simp only [assemble, someRequired, someOptional]; rfl⟩
  | false =>
    have isOptional := List.any_eq_false.mp someRequired p kept
    have someOptional : (props.filter fun p => !p.isAttrs).any (·.optional) = true :=
      List.any_eq_true.mpr ⟨p, kept, by simpa using isOptional⟩
    exact ⟨_, by simp only [assemble, someRequired, someOptional]; rfl⟩

/-- An object type stands for a shape where it declares a property and each of its properties does. -/
theorem assemble_ok_iff {scope : Scope ω} {name : Option String} {context : String} {props : List (Property TypeExpr)} :
    (∃ shape, assemble name props (TypeExpr.elaborateProps scope context false props)
        (TypeExpr.elaborateProps scope context true props) = .ok shape) ↔
      (∃ p ∈ props, p.isAttrs = false) ∧
        ∀ p ∈ props, p.isAttrs = false → ∃ shape, p.type.elaborate scope = .ok shape := by
  constructor
  · rintro ⟨shape, assembled⟩
    refine ⟨exists_declared_of_assemble assembled, fun p listed declared => ?_⟩
    obtain ⟨required, optional, first, second, _⟩ := assemble_elaborateProps assembled
    cases kind : p.optional with
    | false => exact TypeExpr.elaborateProps_ok_iff.mp ⟨required, first⟩ p listed declared kind
    | true => exact TypeExpr.elaborateProps_ok_iff.mp ⟨optional, second⟩ p listed declared kind
  · rintro ⟨some, each⟩
    have elaborated (optional : Bool) : ∃ shapes, TypeExpr.elaborateProps scope context optional props = .ok shapes :=
      TypeExpr.elaborateProps_ok_iff.mpr fun p listed declared _ => each p listed declared
    obtain ⟨required, first⟩ := elaborated false
    obtain ⟨optional, second⟩ := elaborated true
    rw [first, second]
    exact exists_assemble some required optional

theorem exists_map_eq_ok_iff {ε α β : Type} {f : α → β} {result : Except ε α} :
    (∃ out, result.map f = .ok out) ↔ ∃ value, result = .ok value := by
  cases result <;> simp [Except.map]

theorem exists_make_eq_ok_iff {ε α : Type} {make : Except ε (α → α)} {argument : Except ε α} :
    (∃ out, (do let f ← make; argument.map f) = .ok out) ↔
      (∃ f, make = .ok f) ∧ ∃ value, argument = .ok value := by
  cases make <;> cases argument <;> simp [bind, Except.bind, Except.map]

def Scope.Knows (scope : Scope ω) (name : String) : Prop := ∃ shape, scope.resolve name = .ok shape

def Scope.Makes (scope : Scope ω) (tag : String) : Prop := ∃ make, scope.factory tag = .ok make

/-- A type stands for a shape exactly where nothing inside it asks for what is not there. -/
theorem TypeExpr.elaborate_ok_iff_sound {scope : Scope ω} (type : TypeExpr) :
    (∃ shape, type.elaborate scope = .ok shape) ↔ type.Sound scope.Knows scope.Makes := by
  induction type using TypeExpr.induction with
  | scalar kind => exact iff_of_true ⟨_, rfl⟩ (sound_scalar kind)
  | reference name =>
    rw [sound_reference_iff, elaborate]
    rfl
  | array element ih =>
    rw [sound_array_iff, ← ih]
    exact exists_map_eq_ok_iff
  | union members ih =>
    rw [sound_union_iff, elaborate]
    cases members with
    | nil => simp
    | cons first rest =>
      have each : (∀ member ∈ first :: rest, ∃ shape, member.elaborate scope = .ok shape) ↔
          ∀ member ∈ first :: rest, member.Sound scope.Knows scope.Makes :=
        forall₂_congr ih
      rw [if_neg (by simp), exists_map_eq_ok_iff, elaborateMembers_ok_iff, each]
      simp
  | literal props ih =>
    rw [sound_literal_iff, elaborate, assemble_ok_iff]
    refine and_congr_right fun _ => ?_
    exact forall₂_congr fun p listed => imp_congr_right fun _ => ih p listed
  | generic tag argument ih =>
    rw [sound_generic_iff, ← ih, elaborate]
    exact exists_make_eq_ok_iff
  | parameterized tag argument ih =>
    rw [sound_parameterized_iff, ← ih, elaborate]
    exact exists_make_eq_ok_iff

def Schema.Sound (known made : String → Prop) (s : Schema) : Prop := (TypeExpr.literal s.props).Sound known made

def Schema.Mentions (s : Schema) (name : String) : Prop := (TypeExpr.literal s.props).Mentions name

/-- A schema is elaborated exactly when it is sound in its scope. -/
theorem Schema.elaborate_ok_iff_sound {scope : Scope ω} (s : Schema) :
    (∃ shape, s.elaborate scope = .ok shape) ↔ s.Sound scope.Knows scope.Makes := by
  rw [Sound, TypeExpr.sound_literal_iff, elaborate, assemble_ok_iff]
  refine and_congr_right fun _ => ?_
  exact forall₂_congr fun p _ => imp_congr_right fun _ => p.type.elaborate_ok_iff_sound

end Conform
