import Conform.Decoder
import Conform.Proofs.Expansion
import Conform.Wire

namespace Conform

variable {ω : Type}

mutual

/-- The type with `null` as the type of every `attrs`, at whatever depth one is declared. -/
def WireType.eraseAttrs : WireType → WireType
  | .array element => .array (eraseAttrs element)
  | .parameterized tag argument => .parameterized tag (eraseAttrs argument)
  | .generic tag argument => .generic tag (eraseAttrs argument)
  | .union members => .union (eraseMembers members)
  | .literal props => .literal (eraseProps props)
  | type => type

def WireType.eraseMembers : List WireType → List WireType
  | [] => []
  | member :: rest => eraseAttrs member :: eraseMembers rest

def WireType.eraseProps : List (Property WireType) → List (Property WireType)
  | [] => []
  | ⟨name, type, optional⟩ :: rest =>
    ⟨name, if name = attrsKey then .null else eraseAttrs type, optional⟩ :: eraseProps rest

end

/-- Two schemas that differ in the types of `attrs` alone are the same without them. -/
def Schema.eraseAttrs (s : Schema WireType) : Schema WireType := ⟨s.name, WireType.eraseProps s.props⟩

/-- Induction on a type of a document, with the claim at hand for every member and every property. -/
theorem WireType.induction {motive : WireType → Prop} (reference : ∀ name, motive (.reference name))
    (array : ∀ element, motive element → motive (.array element))
    (parameterized : ∀ tag argument, motive argument → motive (.parameterized tag argument))
    (generic : ∀ tag argument, motive argument → motive (.generic tag argument))
    (union : ∀ members, (∀ member ∈ members, motive member) → motive (.union members))
    (literal : ∀ props, (∀ p ∈ props, motive p.type) → motive (.literal props))
    (keyword : ∀ word, motive (.keyword word)) (null : motive .null) (other : ∀ value, motive (.other value)) :
    ∀ type : WireType, motive type := by
  refine @WireType.rec motive (fun members => ∀ member ∈ members, motive member)
    (fun props => ∀ p ∈ props, motive p.type) (fun p => motive p.type)
    reference array parameterized generic union literal keyword null other ?_ ?_ ?_ ?_ ?_
  · exact fun _ member => nomatch member
  · exact fun member rest first others => List.forall_mem_cons.mpr ⟨first, others⟩
  · exact fun _ member => nomatch member
  · exact fun p rest first others => List.forall_mem_cons.mpr ⟨first, others⟩
  · exact fun _ _ _ claim => claim

/-- Two results with one error, or with values that are related. -/
inductive Matches {ε α : Type} (R : α → α → Prop) : Except ε α → Except ε α → Prop
  | error (e : ε) : Matches R (.error e) (.error e)
  | ok {a b : α} : R a b → Matches R (.ok a) (.ok b)

namespace Matches

variable {ε α β : Type} {R : α → α → Prop} {S : β → β → Prop} {result other third : Except ε α}

theorem map {f g : α → β} (related : Matches R result other) (step : ∀ a b, R a b → S (f a) (g b)) :
    Matches S (result.map f) (other.map g) := by
  cases related with
  | error e => exact .error e
  | ok here => exact .ok (step _ _ here)

theorem bind {f g : α → Except ε β} (related : Matches R result other)
    (step : ∀ a b, R a b → Matches S (f a) (g b)) : Matches S (result >>= f) (other >>= g) := by
  cases related with
  | error e => exact .error e
  | ok here => exact step _ _ here

/-- What is known of the values may be used to relate them otherwise. -/
theorem refine {T : α → α → Prop} (related : Matches R result other)
    (step : ∀ a b, result = .ok a → other = .ok b → R a b → T a b) : Matches T result other := by
  cases related with
  | error e => exact .error e
  | ok here => exact .ok (step _ _ rfl rfl here)

end Matches

/-- What is declared of a key besides its type. -/
def Property.head {τ : Type} (p : Property τ) : String × Bool := (p.name, p.optional)

def Property.map {τ σ : Type} (f : τ → σ) (p : Property τ) : Property σ := ⟨p.name, f p.type, p.optional⟩

section Heads

variable {τ : Type} {props others : List (Property τ)}

theorem declaresAttrs_of_heads (heads : props.map Property.head = others.map Property.head) :
    declaresAttrs props = declaresAttrs others := by
  have byHeads (declared : List (Property τ)) :
      declaresAttrs declared = (declared.map Property.head).any fun head => head.1 = attrsKey := by
    rw [List.any_map]
    rfl
  rw [byHeads, byHeads, heads]

theorem any_declared_of_heads (heads : props.map Property.head = others.map Property.head) (side : Bool → Bool) :
    ((props.filter fun p => !p.isAttrs).any fun p => side p.optional) =
      (others.filter fun p => !p.isAttrs).any fun p => side p.optional := by
  have byHeads (declared : List (Property τ)) : ((declared.filter fun p => !p.isAttrs).any fun p => side p.optional) =
      (declared.map Property.head).any fun head => !(head.1 = attrsKey) && side head.2 := by
    rw [List.any_filter, List.any_map]
    rfl
  rw [byHeads, byHeads, heads]

end Heads

section Related

variable {R : Shape ω → Shape ω → Prop} {scope other : Scope ω} {props others : List (Property TypeExpr)}

theorem elaborateMembers_matches {members twins : List TypeExpr}
    (each : List.Forall₂ (fun a b => Matches R (a.elaborate scope) (b.elaborate other)) members twins) :
    Matches (List.Forall₂ R) (TypeExpr.elaborateMembers scope members) (TypeExpr.elaborateMembers other twins) := by
  induction each with
  | nil => exact .ok .nil
  | cons first _ ih =>
    rw [TypeExpr.elaborateMembers, TypeExpr.elaborateMembers]
    exact first.bind fun a b here => ih.bind fun as bs later => .ok (.cons here later)

/-- Properties whose types stand for related shapes, or for nothing for the same reason, have related shapes. -/
theorem elaborateProps_matches (heads : props.map Property.head = others.map Property.head)
    (each : ∀ pair ∈ props.zip others, Matches R (pair.1.type.elaborate scope) (pair.2.type.elaborate other))
    (context : String) (optional : Bool) :
    Matches (List.Forall₂ fun p q => p.1 = q.1 ∧ R p.2 q.2) (TypeExpr.elaborateProps scope context optional props)
      (TypeExpr.elaborateProps other context optional others) := by
  induction props generalizing others with
  | nil => cases others with
    | nil => exact .ok .nil
    | cons => cases heads
  | cons p rest ih => cases others with
    | nil => cases heads
    | cons q rest' =>
      obtain ⟨name, type, isOptional⟩ := p
      obtain ⟨_, twin, _⟩ := q
      obtain ⟨head, heads'⟩ := List.cons.inj heads
      obtain ⟨rfl, rfl⟩ := Prod.mk.inj head
      obtain ⟨here, later⟩ := List.forall_mem_cons.mp each
      have others := ih heads' later
      by_cases skipped : name = attrsKey ∨ isOptional ≠ optional
      · rw [TypeExpr.elaborateProps_skip skipped, TypeExpr.elaborateProps_skip skipped]
        exact others
      · rw [TypeExpr.elaborateProps, TypeExpr.elaborateProps, if_neg skipped, if_neg skipped]
        simp only at here
        generalize type.elaborate scope = result, twin.elaborate other = result' at here
        cases here with
        | error e => exact .error _
        | ok related => exact others.bind fun as bs later => .ok (.cons ⟨rfl, related⟩ later)

/-- What the shapes of object types keep of the shapes of their properties, the object types keep. -/
theorem assemble_matches {P : List (String × Shape ω) → List (String × Shape ω) → Prop}
    {required required' optional optional' : Except SetupError (List (String × Shape ω))}
    (heads : props.map Property.head = others.map Property.head) (first : Matches P required required')
    (second : Matches P optional optional') (name : Option String)
    (strictly : ∀ as bs, P as bs → R (.strict name as) (.strict name bs))
    (leniently : ∀ as bs, P as bs → R (.lenient name as) (.lenient name bs))
    (both : ∀ a b c d, R a b → R c d → R (.both name a c) (.both name b d))
    (withAttrs : ∀ a b, R a b → R (.withAttrs a) (.withAttrs b)) :
    Matches R (assemble name props required optional) (assemble name others required' optional') := by
  have someRequired := any_declared_of_heads heads (! ·)
  have someOptional := any_declared_of_heads heads fun isOptional => isOptional
  simp only [assemble, someRequired, someOptional, declaresAttrs_of_heads heads]
  have wrapped (a b : Shape ω) (related : R a b) : Matches (ε := SetupError) R
      (.ok (if declaresAttrs others then .withAttrs a else a))
      (.ok (if declaresAttrs others then .withAttrs b else b)) := by
    split
    · exact .ok (withAttrs a b related)
    · exact .ok related
  split
  · exact first.bind fun as bs here => second.bind fun cs ds later =>
      wrapped _ _ (both _ _ _ _ (strictly as bs here) (leniently cs ds later))
  · exact (first.map strictly).bind wrapped
  · exact (second.map leniently).bind wrapped
  · exact .error _

end Related

/-- Types that stand for the same in every scope. -/
def TypeExpr.Alike (ω : Type) (a b : TypeExpr) : Prop := ∀ scope : Scope ω, a.elaborate scope = b.elaborate scope

/-- Properties that are declared alike; of an `attrs` the type does not count. -/
structure Property.Alike (ω : Type) (p q : Property TypeExpr) : Prop where
  name : p.name = q.name
  optional : p.optional = q.optional
  type : p.name ≠ attrsKey → p.type.Alike ω q.type

/-- Schemas that a registry cannot tell apart. -/
structure Schema.Alike (ω : Type) (s t : Schema) : Prop where
  name : s.name = t.name
  attrs : declaresAttrs s.props = declaresAttrs t.props
  elaborate : ∀ scope : Scope ω, s.elaborate scope = t.elaborate scope

section Elaborate

variable {props others : List (Property TypeExpr)}

theorem elaborateMembers_alike {members twins : List TypeExpr}
    (alike : List.Forall₂ (TypeExpr.Alike ω) members twins) (scope : Scope ω) :
    TypeExpr.elaborateMembers scope members = TypeExpr.elaborateMembers scope twins := by
  induction alike with
  | nil => rfl
  | cons first _ ih => rw [TypeExpr.elaborateMembers, TypeExpr.elaborateMembers, first scope, ih]

/-- The type of the reserved property is not looked at. -/
theorem elaborateProps_alike (alike : List.Forall₂ (Property.Alike ω) props others) (scope : Scope ω)
    (context : String) (optional : Bool) :
    TypeExpr.elaborateProps scope context optional props = TypeExpr.elaborateProps scope context optional others := by
  induction alike with
  | nil => rfl
  | @cons p q _ _ first _ ih =>
    obtain ⟨name, type, isOptional⟩ := p
    obtain ⟨_, twin, _⟩ := q
    obtain ⟨rfl, rfl, same⟩ := first
    by_cases skipped : name = attrsKey ∨ isOptional ≠ optional
    · rw [TypeExpr.elaborateProps_skip skipped, TypeExpr.elaborateProps_skip skipped, ih]
    · have elaborated : type.elaborate scope = twin.elaborate scope := same (not_or.mp skipped).1 scope
      rw [TypeExpr.elaborateProps, TypeExpr.elaborateProps, if_neg skipped, if_neg skipped, elaborated, ih]

theorem heads_alike (alike : List.Forall₂ (Property.Alike ω) props others) :
    props.map Property.head = others.map Property.head := by
  induction alike with
  | nil => rfl
  | cons first _ ih => simp only [List.map_cons, Property.head, first.name, first.optional, ih]

/-- An object type stands for the same whatever the type of its `attrs` is. -/
theorem assemble_alike (alike : List.Forall₂ (Property.Alike ω) props others) (scope : Scope ω) (name : Option String)
    (context : String) :
    assemble name props (TypeExpr.elaborateProps scope context false props)
        (TypeExpr.elaborateProps scope context true props) =
      assemble name others (TypeExpr.elaborateProps scope context false others)
        (TypeExpr.elaborateProps scope context true others) := by
  have required := any_declared_of_heads (heads_alike alike) (! ·)
  have optional := any_declared_of_heads (heads_alike alike) fun isOptional => isOptional
  rw [elaborateProps_alike alike, elaborateProps_alike alike]
  simp only [assemble, required, optional, declaresAttrs_of_heads (heads_alike alike)]

end Elaborate

section Lower

/-- Members are lowered alike one by one, without the types of reserved properties. -/
theorem lowerMembers_erase {members : List WireType}
    (each : ∀ member ∈ members, Matches (TypeExpr.Alike ω) member.lower member.eraseAttrs.lower) :
    Matches (List.Forall₂ (TypeExpr.Alike ω)) (WireType.lowerMembers members)
      (WireType.lowerMembers (WireType.eraseMembers members)) := by
  induction members with
  | nil => exact .ok .nil
  | cons member rest ih =>
    obtain ⟨first, others⟩ := List.forall_mem_cons.mp each
    rw [WireType.lowerMembers, WireType.eraseMembers, WireType.lowerMembers]
    refine first.bind fun a b here => (ih others).bind fun as bs later => ?_
    exact .ok (.cons here later)

/-- The types of `attrs` neither make the properties of a document fail nor show in what they mean. -/
theorem lowerProps_erase {props : List (Property WireType)}
    (each : ∀ p ∈ props, Matches (TypeExpr.Alike ω) p.type.lower p.type.eraseAttrs.lower) (context : String) :
    Matches (List.Forall₂ (Property.Alike ω)) (WireType.lowerProps context props)
      (WireType.lowerProps context (WireType.eraseProps props)) := by
  induction props with
  | nil => exact .ok .nil
  | cons p rest ih =>
    obtain ⟨name, type, optional⟩ := p
    obtain ⟨first, others⟩ := List.forall_mem_cons.mp each
    have rest := ih others
    rw [WireType.eraseProps]
    by_cases reserved : name = attrsKey
    · -- Whatever the type is, it is lowered to some type, which does not count.
      have keep : ∀ lowered, Property.Alike ω ⟨name, lowered, optional⟩ ⟨name, .scalar .null, optional⟩ :=
        fun _ => ⟨rfl, rfl, fun free => absurd reserved free⟩
      have erased : WireType.lower (if name = attrsKey then .null else type.eraseAttrs) = .ok (.scalar .null) := by
        rw [if_pos reserved, WireType.lower]
      rw [WireType.lowerProps, WireType.lowerProps, erased]
      cases type.lower with
      | ok lowered => exact rest.bind fun as bs later => .ok (.cons (keep lowered) later)
      | error e =>
        simp only [if_pos reserved]
        exact rest.bind fun as bs later => .ok (.cons (keep _) later)
    · rw [if_neg reserved, WireType.lowerProps, WireType.lowerProps]
      generalize type.lower = lowered, type.eraseAttrs.lower = erased at first
      cases first with
      | error e =>
        simp only [if_neg reserved]
        exact .error _
      | ok here => exact rest.bind fun as bs later => .ok (.cons ⟨rfl, rfl, fun _ => here⟩ later)

/-- A type is lowered alike without the types of its reserved properties: by induction on the type. -/
theorem lower_erase (type : WireType) : Matches (TypeExpr.Alike ω) type.lower type.eraseAttrs.lower := by
  induction type using WireType.induction with
  | reference name => exact .ok fun _ => rfl
  | array element ih =>
    rw [WireType.eraseAttrs, WireType.lower, WireType.lower]
    exact ih.map fun a b same scope => by rw [TypeExpr.elaborate, TypeExpr.elaborate, same scope]
  | parameterized tag argument ih | generic tag argument ih =>
    rw [WireType.eraseAttrs, WireType.lower, WireType.lower]
    exact ih.map fun a b same scope => by rw [TypeExpr.elaborate, TypeExpr.elaborate, same scope]
  | union members ih =>
    rw [WireType.eraseAttrs, WireType.lower, WireType.lower]
    refine (lowerMembers_erase ih).map fun as bs alike scope => ?_
    have empty : as.isEmpty = bs.isEmpty := by cases alike <;> rfl
    rw [TypeExpr.elaborate, TypeExpr.elaborate, elaborateMembers_alike alike, empty]
  | literal props ih =>
    rw [WireType.eraseAttrs, WireType.lower, WireType.lower]
    refine (lowerProps_erase ih literalContext).map fun as bs alike scope => ?_
    exact assemble_alike alike scope none literalContext
  | keyword word =>
    rw [WireType.eraseAttrs, WireType.lower]
    · cases Scalar.ofName? word with
      | none => exact .error _
      | some kind => exact .ok fun _ => rfl
    all_goals simp
  | null => exact .ok fun _ => rfl
  | other value => exact .error _

theorem Schema.lower_erase (s : Schema WireType) : Matches (Schema.Alike ω) s.lower s.eraseAttrs.lower := by
  have props : Matches (List.Forall₂ (Property.Alike ω)) (WireType.lowerProps s.name s.props)
      (WireType.lowerProps s.name (WireType.eraseProps s.props)) :=
    lowerProps_erase (fun p _ => Conform.lower_erase p.type) s.name
  refine props.map fun as bs alike => ?_
  exact ⟨rfl, declaresAttrs_of_heads (heads_alike alike), fun scope => assemble_alike alike scope (some s.name) s.name⟩

/-- A list of schemas is lowered alike without the types of reserved properties, or fails with the
same error. -/
theorem Schema.lowerAll_erase (schemas : List (Schema WireType)) :
    Matches (List.Forall₂ (Schema.Alike ω)) (lowerAll schemas) (lowerAll (schemas.map eraseAttrs)) := by
  induction schemas with
  | nil => exact .ok .nil
  | cons s rest ih =>
    rw [List.map_cons, lowerAll, lowerAll]
    exact (lower_erase s).bind fun a b here => ih.bind fun as bs later => .ok (.cons here later)

end Lower

namespace Registry

variable {s t : Schema}

/-- Schemas that are alike are registered alike. -/
theorem registerSchema_alike (alike : s.Alike ω t) (r : Registry ω) : r.registerSchema s = r.registerSchema t := by
  simp only [registerSchema, alike.name, alike.attrs, alike.elaborate]

theorem registerEach_alike {schemas others : List Schema} (alike : List.Forall₂ (Schema.Alike ω) schemas others)
    (r : Registry ω) : r.registerEach (schemas.map .schema) = r.registerEach (others.map .schema) := by
  induction alike generalizing r with
  | nil => rfl
  | cons first _ ih => simp only [List.map_cons, registerEach, register, registerSchema_alike first, ih]

theorem names_alike {schemas others : List Schema} (alike : List.Forall₂ (Schema.Alike ω) schemas others) :
    (schemas.map (@Definition.schema ω)).flatMap Definition.names =
      (others.map (@Definition.schema ω)).flatMap Definition.names := by
  induction alike with
  | nil => rfl
  | cons first _ ih => simp only [List.map_cons, List.flatMap_cons, Definition.names, first.name, ih]

/-- A batch is registered alike for schemas that the registry cannot tell apart. -/
theorem registerAll_alike {schemas others : List Schema} (alike : List.Forall₂ (Schema.Alike ω) schemas others)
    (r : Registry ω) : r.registerAll (schemas.map .schema) = r.registerAll (others.map .schema) := by
  rw [registerAll, registerAll, names_alike alike, registerEach_alike alike]

end Registry

/-- The declared types of `attrs` play no part. Documents that differ in them alone are refused with one
error, or mean schemas that are registered alike, and what is registered answers alike. -/
theorem attrs_type_irrelevant {one two : List (Schema WireType)}
    (same : one.map Schema.eraseAttrs = two.map Schema.eraseAttrs) :
    (∃ e, Schema.lowerAll one = .error e ∧ Schema.lowerAll two = .error e) ∨
      ∃ first second, Schema.lowerAll one = .ok first ∧ Schema.lowerAll two = .ok second ∧
        ∀ r : Registry ω, r.registerAll (first.map .schema) = r.registerAll (second.map .schema) ∧
          ∀ target input value,
            let decoder := Decoder.mk (r.registerAll (first.map .schema)).1
            let other := Decoder.mk (r.registerAll (second.map .schema)).1
            decoder.decode target input = other.decode target input ∧
              decoder.validate target input = other.validate target input ∧
              decoder.encode target value = other.encode target value := by
  have left : Matches (List.Forall₂ (Schema.Alike ω)) (Schema.lowerAll one) _ := Schema.lowerAll_erase one
  have right : Matches (List.Forall₂ (Schema.Alike ω)) (Schema.lowerAll two) _ := Schema.lowerAll_erase two
  rw [same] at left
  generalize Schema.lowerAll one = lowered, Schema.lowerAll two = twin,
    Schema.lowerAll (two.map Schema.eraseAttrs) = erased at left right ⊢
  cases left with
  | error e => cases right with
    | error => exact Or.inl ⟨e, rfl, rfl⟩
  | ok first => cases right with
    | ok second =>
      refine Or.inr ⟨_, _, rfl, rfl, fun r => ?_⟩
      have registered := (Registry.registerAll_alike first r).trans (Registry.registerAll_alike second r).symm
      exact ⟨registered, fun target input value => by simp only [registered, and_self]⟩

section Badge

/-- A badge with notes, both with an `attrs` of a given type. -/
def badgeDocument (top inside : WireType) : Schema WireType where
  name := "Badge"
  props := [⟨"text", .keyword "string", false⟩, ⟨attrsKey, top, false⟩,
    ⟨"notes", .array (.union [.literal [⟨"by", .keyword "string", true⟩, ⟨attrsKey, inside, true⟩], .null]), true⟩]

def looseDocuments : List (Schema WireType) := [badgeDocument (.keyword "any") (.other (.arr []))]

def strictDocuments : List (Schema WireType) := [badgeDocument (.reference "Nowhere") (.union [])]

theorem attrs_type_irrelevant_badge :
    looseDocuments.map Schema.eraseAttrs = strictDocuments.map Schema.eraseAttrs ∧
      ∃ first second, Schema.lowerAll looseDocuments = .ok first ∧ Schema.lowerAll strictDocuments = .ok second ∧
        ∀ r : Registry Empty, r.registerAll (first.map .schema) = r.registerAll (second.map .schema) := by
  refine ⟨rfl, ?_⟩
  rcases @attrs_type_irrelevant Empty looseDocuments strictDocuments rfl with
    ⟨e, refused, _⟩ | ⟨first, second, lowered, others, registered⟩
  · cases refused
  · exact ⟨first, second, lowered, others, fun r => (registered r).1⟩

end Badge

end Conform
