import Conform.Proofs.Entries
import Conform.Proofs.Setup
import Conform.Proofs.Shape.Repeated

namespace Conform

variable {ω : Type}

/-- The shape of the objects with given properties. -/
def Scope.object (scope : Scope ω) (label : Option String) (props : List (Property TypeExpr)) :
    Except SetupError (Shape ω) :=
  assemble label props (TypeExpr.elaborateProps scope (label.getD literalContext) false props)
    (TypeExpr.elaborateProps scope (label.getD literalContext) true props)

theorem Schema.elaborate_eq_object (s : Schema) (scope : Scope ω) :
    s.elaborate scope = scope.object (some s.name) s.props := rfl

theorem TypeExpr.elaborate_literal_eq_object (props : List (Property TypeExpr)) (scope : Scope ω) :
    (TypeExpr.literal props).elaborate scope = scope.object none props := by
  rw [elaborate]
  rfl

/-- What a property stands for, unless it is `attrs` or its type stands for nothing. -/
def Scope.declaration? (scope : Scope ω) (p : Property TypeExpr) : Option (Property (Shape ω)) :=
  if p.isAttrs then none else (p.type.elaborate scope).toOption.map fun shape => ⟨p.name, shape, p.optional⟩

def Scope.declarations (scope : Scope ω) (props : List (Property TypeExpr)) : List (Property (Shape ω)) :=
  props.filterMap scope.declaration?

section Declarations

variable {scope : Scope ω} {props : List (Property TypeExpr)}

/-- Every property but `attrs` has a type that stands for a shape. -/
def Scope.Elaborates (scope : Scope ω) (props : List (Property TypeExpr)) : Prop :=
  ∀ p ∈ props, p.isAttrs = false → ∃ shape, p.type.elaborate scope = .ok shape

theorem declaration?_of_isAttrs {p : Property TypeExpr} (reserved : p.isAttrs = true) :
    scope.declaration? p = none := by
  rw [Scope.declaration?, if_pos reserved]

theorem declaration?_of_elaborate {p : Property TypeExpr} {shape : Shape ω} (declared : p.isAttrs = false)
    (elaborated : p.type.elaborate scope = .ok shape) :
    scope.declaration? p = some ⟨p.name, shape, p.optional⟩ := by
  rw [Scope.declaration?, declared, if_neg Bool.false_ne_true, elaborated]
  rfl

/-- Only properties that are not reserved are declared, each under its own name. -/
theorem of_declaration? {p : Property TypeExpr} {decl : Property (Shape ω)}
    (found : scope.declaration? p = some decl) : p.isAttrs = false ∧ decl.name = p.name := by
  cases declared : p.isAttrs with
  | true =>
    rw [declaration?_of_isAttrs declared] at found
    cases found
  | false =>
    rw [Scope.declaration?, declared, if_neg Bool.false_ne_true] at found
    obtain ⟨shape, _, rfl⟩ := Option.map_eq_some_iff.mp found
    exact ⟨rfl, rfl⟩

/-- No declaration has the reserved name. -/
theorem declarations_unreserved (scope : Scope ω) (props : List (Property TypeExpr)) :
    ∀ decl ∈ scope.declarations props, decl.name ≠ attrsKey := by
  intro decl member
  obtain ⟨p, _, found⟩ := List.mem_filterMap.mp member
  obtain ⟨declared, same⟩ := of_declaration? found
  rw [same]
  simpa [Property.isAttrs] using declared

/-- A side is elaborated to the declarations of that side. -/
theorem elaborateProps_eq_side (each : scope.Elaborates props) (context : String) (optional : Bool) :
    TypeExpr.elaborateProps scope context optional props = .ok (Shape.side optional (scope.declarations props)) := by
  induction props with
  | nil => rfl
  | cons p rest ih =>
    obtain ⟨here, later⟩ := List.forall_mem_cons.mp each
    obtain ⟨name, type, isOptional⟩ := p
    by_cases reserved : name = attrsKey
    · have isAttrs : Property.isAttrs ⟨name, type, isOptional⟩ = true := by simp [Property.isAttrs, reserved]
      rw [TypeExpr.elaborateProps_skip (Or.inl reserved), ih later, Scope.declarations, Scope.declarations,
        List.filterMap_cons_none (declaration?_of_isAttrs isAttrs)]
    · have declared : Property.isAttrs ⟨name, type, isOptional⟩ = false := by simp [Property.isAttrs, reserved]
      obtain ⟨shape, elaborated⟩ := here declared
      rw [Scope.declarations, List.filterMap_cons_some (declaration?_of_elaborate declared elaborated), Shape.side]
      by_cases same : isOptional = optional
      · have kept : ¬(name = attrsKey ∨ isOptional ≠ optional) := not_or.mpr ⟨reserved, not_not.mpr same⟩
        rw [TypeExpr.elaborateProps, if_neg kept, elaborated, ih later, if_pos same]
        rfl
      · rw [TypeExpr.elaborateProps_skip (Or.inr same), ih later, if_neg same]
        rfl

/-- Keeping the last declarations and elaborating the types commute. -/
theorem declarations_lastOnly (each : scope.Elaborates props) :
    scope.declarations (lastOnly props) = lastOnly (scope.declarations props) := by
  induction props with
  | nil => rfl
  | cons p rest ih =>
    obtain ⟨here, later⟩ := List.forall_mem_cons.mp each
    have commutes := ih later
    unfold Scope.declarations at commutes ⊢
    cases declared : p.isAttrs with
    | true =>
      rw [List.filterMap_cons_none (declaration?_of_isAttrs declared), ← commutes, lastOnly]
      split
      · rfl
      · rw [List.filterMap_cons_none (declaration?_of_isAttrs declared)]
    | false =>
      obtain ⟨shape, elaborated⟩ := here declared
      have found := declaration?_of_elaborate declared elaborated
      rw [List.filterMap_cons_some found]
      by_cases repeated : ∃ q ∈ rest, q.name = p.name
      · obtain ⟨q, inRest, same⟩ := repeated
        have declared' : q.isAttrs = false := by simpa only [Property.isAttrs, same] using declared
        obtain ⟨_, elaborated'⟩ := later q inRest declared'
        have kept := List.mem_filterMap.mpr ⟨q, inRest, declaration?_of_elaborate declared' elaborated'⟩
        rw [lastOnly_cons_of_mem inRest same, lastOnly_cons_of_mem kept same, commutes]
      · have absent : ∀ q ∈ rest, q.name ≠ p.name := fun q inRest same => repeated ⟨q, inRest, same⟩
        rw [lastOnly_cons_of_not_mem absent, List.filterMap_cons_some found, lastOnly_cons_of_not_mem, commutes]
        intro decl member
        obtain ⟨q, inRest, found'⟩ := List.mem_filterMap.mp member
        rw [(of_declaration? found').2]
        exact absent q inRest

theorem declaresAttrs_lastOnly (props : List (Property TypeExpr)) :
    declaresAttrs (lastOnly props) = declaresAttrs props := by
  rw [Bool.eq_iff_iff, declaresAttrs, declaresAttrs, List.any_eq_true, List.any_eq_true]
  constructor
  · rintro ⟨p, member, reserved⟩
    exact ⟨p, (lastOnly_sublist props).subset member, reserved⟩
  · rintro ⟨p, member, reserved⟩
    obtain ⟨last, kept, same⟩ := exists_mem_lastOnly p member
    exact ⟨last, kept, by simpa only [Property.isAttrs, same] using reserved⟩

section Object

variable {label : Option String} {shape : Shape ω}

/-- An object type that stands for a shape declares something, and stands for the shape of its declarations. -/
theorem eq_ofDeclared_of_object (made : scope.object label props = .ok shape) :
    ((∃ p ∈ props, p.isAttrs = false) ∧ scope.Elaborates props) ∧
      shape = .ofDeclared label (declaresAttrs props) (scope.declarations props) := by
  have sound : (∃ p ∈ props, p.isAttrs = false) ∧ scope.Elaborates props := assemble_ok_iff.mp ⟨shape, made⟩
  obtain ⟨required, optional, first, second, rfl⟩ := assemble_elaborateProps made
  rw [elaborateProps_eq_side sound.2] at first second
  cases first
  cases second
  exact ⟨sound, rfl⟩

/-- Its last declarations stand for a shape too, under whatever name. -/
theorem object_lastOnly (made : scope.object label props = .ok shape) (other : Option String) :
    scope.object other (lastOnly props) =
      .ok (.ofDeclared other (declaresAttrs props) (lastOnly (scope.declarations props))) := by
  obtain ⟨⟨⟨p, member, declared⟩, each⟩, _⟩ := eq_ofDeclared_of_object made
  have eachLast : ∀ q ∈ lastOnly props, q.isAttrs = false → ∃ shape, q.type.elaborate scope = .ok shape :=
    fun q kept => each q ((lastOnly_sublist props).subset kept)
  obtain ⟨last, kept, same⟩ := exists_mem_lastOnly p member
  have declaredLast : last.isAttrs = false := by simpa only [Property.isAttrs, same] using declared
  obtain ⟨alone, madeLast⟩ : ∃ alone, scope.object other (lastOnly props) = .ok alone :=
    assemble_ok_iff.mpr ⟨⟨last, kept, declaredLast⟩, eachLast⟩
  rw [madeLast, (eq_ofDeclared_of_object madeLast).2, declaresAttrs_lastOnly, declarations_lastOnly each]

end Object

end Declarations

/-- Where the shape of some declarations and that of the last of each name agree. Where no name is declared both
as required and as optional, acceptance decides about the rest. -/
structure LastWinsWhere (decls : List (Property (Shape ω))) (shape alone : Shape ω) : Prop where
  agree_iff : ∀ {input : Json}, input.Distinct → ∀ here, shape.Agree alone input here ↔
    ∀ fields, input = .obj fields → Shape.LastDecides decls fields here
  agree_iff_of_unsplit : Shape.Unsplit decls → (∀ p ∈ decls, p.type.Reporting) → ∀ {input : Json}, input.Distinct →
    ∀ here, shape.Agree alone input here ↔
      ∀ fields, input = .obj fields → Shape.Admits (lastOnly decls) fields here → Shape.Admits decls fields here

/-- Where the last declaration wins is told by the declarations, whatever the names of the two
shapes. -/
theorem lastWinsWhere_ofDeclared {decls : List (Property (Shape ω))} (unreserved : ∀ p ∈ decls, p.name ≠ attrsKey)
    (label other : Option String) (attrs : Bool) :
    LastWinsWhere decls (.ofDeclared label attrs decls) (.ofDeclared other attrs (lastOnly decls)) where
  agree_iff distinct _ := Shape.agree_lastOnly_iff unreserved distinct label other attrs
  agree_iff_of_unsplit unsplit reporting _ distinct _ := by
    rw [Shape.agree_lastOnly_iff unreserved distinct]
    simp only [Shape.lastDecides_iff unsplit reporting]

/-- A schema or an object type accepts, decodes and encodes what the last declarations of its names do alone, on
exactly the objects where these decide: the earlier ones reject nothing that they accept, and each field is kept
and written as by them. The last declarations alone can be registered in the place of the schema, beside it under
another name, and wherever else its references mean the same. -/
theorem last_declaration_wins_iff (r : Registry ω) :
    (∀ s after shape, r.registerSchema s = (after, .ok shape) → ∀ home name, r.Within home → home.Free name →
      ∃ later alone, home.registerSchema ⟨name, lastOnly s.props⟩ = (later, .ok alone) ∧
        LastWinsWhere (r.scope.declarations s.props) shape alone) ∧
    ∀ props shape, (TypeExpr.literal props).elaborate r.scope = .ok shape →
      ∃ alone, (TypeExpr.literal (lastOnly props)).elaborate r.scope = .ok alone ∧
        LastWinsWhere (r.scope.declarations props) shape alone := by
  constructor
  · intro s after shape done home name within free
    obtain ⟨_, elaborated, _⟩ := Registry.registerSchema_eq_ok done
    have made := (Registry.within_of_resolving r s.name).elaborate elaborated
    rw [Schema.elaborate_eq_object] at made
    obtain ⟨_, rfl⟩ := eq_ofDeclared_of_object made
    let last : Schema := ⟨name, lastOnly s.props⟩
    have there : last.elaborate home.scope = .ok _ := within.elaborate (object_lastOnly made (some name))
    have sound := last.elaborate_ok_iff_sound.mp ⟨_, there⟩
    obtain ⟨alone, registered⟩ := Registry.registerSchema_ok_iff.mpr ⟨free, sound⟩
    have doneLast : home.registerSchema last = (_, .ok alone) := Prod.ext rfl registered
    obtain ⟨_, elaboratedLast, _⟩ := Registry.registerSchema_eq_ok doneLast
    -- The name that is being registered counts for nothing, so the last declarations mean there what they mean here.
    have same := (Registry.within_of_resolving home name).elaborate elaboratedLast
    cases there.symm.trans same
    exact ⟨_, _, doneLast, lastWinsWhere_ofDeclared (declarations_unreserved _ _) _ _ _⟩
  · intro props shape elaborated
    rw [TypeExpr.elaborate_literal_eq_object] at elaborated
    obtain ⟨_, rfl⟩ := eq_ofDeclared_of_object elaborated
    refine ⟨_, ?_, lastWinsWhere_ofDeclared (declarations_unreserved _ _) _ none _⟩
    rw [TypeExpr.elaborate_literal_eq_object, object_lastOnly elaborated]

section Pair

/-- A schema that declares one property twice. -/
def pairSchema : Schema := ⟨"Pair", [⟨"a", .scalar .string, false⟩, ⟨"a", .scalar .number, false⟩]⟩

def pairInput : Json := .obj [("a", .num (.int 1))]

theorem pairInput_distinct : pairInput.Distinct := ⟨by decide, trivial, trivial⟩

theorem last_declaration_wins_iff_pair : ∃ shape later alone,
    (Registry.empty : Registry Empty).registerSchema pairSchema =
      (Registry.empty.setSlot "Pair" (.resolved shape false), .ok shape) ∧
    (Registry.empty : Registry Empty).Within .empty ∧ (Registry.empty : Registry Empty).Free "Pair" ∧
    (Registry.empty : Registry Empty).registerSchema ⟨"Pair", lastOnly pairSchema.props⟩ = (later, .ok alone) ∧
    LastWinsWhere ((Registry.empty : Registry Empty).scope.declarations pairSchema.props) shape alone := by
  have within := Registry.Within.refl (Registry.empty : Registry Empty)
  have free : (Registry.empty : Registry Empty).Free "Pair" := Or.inr rfl
  obtain ⟨later, alone, registered, wins⟩ :=
    (last_declaration_wins_iff Registry.empty).1 pairSchema _ _ rfl .empty "Pair" within free
  exact ⟨_, later, alone, rfl, within, free, registered, wins⟩

/-- A number that the last declaration takes is rejected by the earlier one. -/
theorem pair_earlier_rejects : ∃ after shape later alone,
    (Registry.empty : Registry Empty).registerSchema pairSchema = (after, .ok shape) ∧
    Registry.empty.registerSchema ⟨"Pair", lastOnly pairSchema.props⟩ = (later, .ok alone) ∧
    pairInput.Distinct ∧
    (Decoder.mk after).validate (.named "Pair") pairInput =
      .ok (.error [⟨"Pair.a", "string", some (.num (.int 1))⟩]) ∧
    (Decoder.mk later).validate (.named "Pair") pairInput = .ok (.ok (.ofJson pairInput)) ∧
    ¬shape.Agree alone pairInput (.top "Pair") := by
  refine ⟨_, _, _, _, rfl, rfl, pairInput_distinct, rfl, rfl, fun agree => ?_⟩
  cases (agree.decodes (.ofJson pairInput)).mpr rfl

end Pair

end Conform
