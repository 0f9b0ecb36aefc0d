import Conform.Proofs.FirstDefect
import Conform.Proofs.Wire.Grammar

namespace Conform

namespace TypeForm

variable {τ σ : Type}

def expr : TypeForm TypeExpr → TypeExpr
  | .reference name => .reference name
  | .array element => .array element
  | .parameterized tag argument => .parameterized tag argument
  | .generic tag argument => .generic tag argument
  | .union members => .union members
  | .literal props => .literal props

/-- What stands in type position in a form, each with the property whose type it is. -/
def nested : TypeForm τ → List (Option String × τ)
  | .reference _ => []
  | .array element => [(none, element)]
  | .parameterized _ argument => [(none, argument)]
  | .generic _ argument => [(none, argument)]
  | .union members => members.map (none, ·)
  | .literal props => props.map fun p => (some p.name, p.type)

/-- All of a form but what stands in type position in it. -/
def skeleton (form : TypeForm τ) : TypeForm Unit := form.map fun _ => ()

theorem nested_map (f : τ → σ) (form : TypeForm τ) : (form.map f).nested = form.nested.map (Prod.map id f) := by
  cases form with
  | union members => simp [map, nested]
  | literal props => simp [map, nested, Property.map]
  | _ => rfl

theorem length_nested_of_skeleton {form : TypeForm τ} {other : TypeForm σ} (alike : form.skeleton = other.skeleton) :
    form.nested.length = other.nested.length := by
  have lengths := congrArg (fun form => form.nested.length) alike
  simpa only [skeleton, nested_map, List.length_map] using lengths

theorem skeleton_map (f : τ → σ) (form : TypeForm τ) : (form.map f).skeleton = form.skeleton := by
  cases form with
  | union members => exact congrArg union List.map_map
  | literal props => exact congrArg literal List.map_map
  | _ => rfl

end TypeForm

/-- The values that stand for a type: an object does where the types nested in its first form do, but
for those of `attrs`. -/
inductive Accepted : Json → Prop
  | null : Accepted .null
  | keyword (kind : Scalar) : Accepted (.str kind.name)
  | object {fields : Fields Json} {form : TypeForm Json} : FirstForm fields form →
      (∀ part ∈ form.nested, part.1 ≠ some attrsKey → Accepted part.2) → Accepted (.obj fields)

/-- The type that a value stands for: it has the form of the value, with the types that the nested values
stand for. An `attrs` that stands for none is taken for an empty object. -/
inductive Mirrors : Json → TypeExpr → Prop
  | null : Mirrors .null (.scalar .null)
  | keyword (kind : Scalar) : Mirrors (.str kind.name) (.scalar kind)
  | object {fields : Fields Json} {form : TypeForm Json} {meant : TypeForm TypeExpr} : FirstForm fields form →
      form.skeleton = meant.skeleton →
      (∀ pair ∈ form.nested.zip meant.nested, (pair.1.1 = some attrsKey → Accepted pair.1.2) →
        Mirrors pair.1.2 pair.2.2) →
      (∀ pair ∈ form.nested.zip meant.nested, pair.1.1 = some attrsKey → ¬Accepted pair.1.2 →
        pair.2.2 = .literal []) →
      Mirrors (.obj fields) meant.expr

/-- The values in type position that count, each behind the properties that lead to it. -/
inductive TypeAt : Json → List String → Json → Prop
  | here (value : Json) : TypeAt value [] value
  | inside {fields : Fields Json} {form : TypeForm Json} {part : Option String × Json} {path : List String}
      {value : Json} : FirstForm fields form → part ∈ form.nested → part.1 ≠ some attrsKey →
      TypeAt part.2 path value → TypeAt (.obj fields) (part.1.toList ++ path) value

/-- A value that no type is written as. -/
structure Formless (value : Json) : Prop where
  notNull : value ≠ .null
  notKeyword : ∀ kind : Scalar, value ≠ .str kind.name
  notForm : ∀ fields, value = .obj fields → ∀ form, ¬HasForm fields form

/-- A value inside another one, whose keys are distinct where those of the whole are. -/
structure Json.Below (part whole : Json) : Prop where
  smaller : sizeOf part < sizeOf whole
  distinct : whole.Distinct → part.Distinct

section Below

variable {fields : Fields Json} {part value whole : Json}

theorem Json.Below.trans (first : part.Below value) (second : value.Below whole) : part.Below whole :=
  ⟨first.smaller.trans second.smaller, fun distinct => first.distinct (second.distinct distinct)⟩

theorem below_of_get? {key : String} (found : Fields.get? key fields = some value) : value.Below (.obj fields) where
  smaller := by
    have smaller := List.sizeOf_lt_of_mem (Fields.mem_of_get? found)
    simp only [Prod.mk.sizeOf_spec, Json.obj.sizeOf_spec] at smaller ⊢
    omega
  distinct distinct := distinct.of_get? found

theorem below_of_mem {items : List Json} (member : value ∈ items) : value.Below (.arr items) where
  smaller := by
    have smaller := List.sizeOf_lt_of_mem member
    simp only [Json.arr.sizeOf_spec]
    omega
  distinct distinct := Json.distinct_arr_iff.mp distinct value member

theorem IsProperty.below {p : Property Json} (written : IsProperty value p) : p.type.Below value := by
  cases written with
  | object _ atType _ => exact below_of_get? atType
  | pair | triple => exact below_of_mem (by simp)

/-- What a form nests lies below the object that has it. -/
theorem HasForm.below {form : TypeForm Json} (has : HasForm fields form) {nested : Option String × Json}
    (member : nested ∈ form.nested) : nested.2.Below (.obj fields) := by
  cases has with
  | reference _ => cases member
  | array present | parameterized _ present | generic _ present =>
    obtain rfl := List.mem_singleton.mp member
    exact below_of_get? present
  | union present =>
    obtain ⟨value, listed, rfl⟩ := List.mem_map.mp member
    exact (below_of_mem listed).trans (below_of_get? present)
  | literal _ present _ written =>
    obtain ⟨p, listed, rfl⟩ := List.mem_map.mp member
    have inside : ∀ p ∈ _, ∃ item ∈ _, IsProperty item p :=
      Shape.forall_right_of_forall₂ written fun item listed p written => ⟨item, listed, written⟩
    obtain ⟨item, inItems, isProperty⟩ := inside p listed
    exact (isProperty.below.trans (below_of_mem inItems)).trans (below_of_get? present)

end Below

section Lower

theorem map_eq_map_iff {α β γ : Type} {f : α → γ} {g : β → γ} {items : List α} {others : List β} :
    items.map f = others.map g ↔ List.Forall₂ (fun item other => f item = g other) items others := by
  rw [← List.forall₂_eq_eq_eq, List.forall₂_map_left_iff, List.forall₂_map_right_iff]

theorem Property.map_unit_eq_iff {τ σ : Type} {p : Property τ} {q : Property σ} :
    (p.map fun _ => ()) = (q.map fun _ => ()) ↔ p.head = q.head := by
  simp [Property.map, Property.head]

/-- A nested type is lowered to what it means; an `attrs` without a meaning to an empty object. -/
def Lowers (part : Option String × WireType) (type : TypeExpr) : Prop :=
  part.2.lower = .ok type ∨ part.1 = some attrsKey ∧ (∃ e, part.2.lower = .error e) ∧ type = .literal []

theorem lowerMembers_eq_ok_iff {members : List WireType} {types : List TypeExpr} :
    WireType.lowerMembers members = .ok types ↔ List.Forall₂ (fun m type => m.lower = .ok type) members types := by
  induction members generalizing types with
  | nil => rw [WireType.lowerMembers, List.forall₂_nil_left_iff, Except.ok.injEq, eq_comm]
  | cons member rest ih =>
    rw [WireType.lowerMembers, except_bind_eq_ok_iff, List.forall₂_cons_left_iff]
    simp only [except_bind_eq_ok_iff, pure, Except.pure, Except.ok.injEq, ih]
    constructor
    · rintro ⟨type, lowered, later, others, rfl⟩
      exact ⟨type, later, lowered, others, rfl⟩
    · rintro ⟨type, later, lowered, others, rfl⟩
      exact ⟨type, lowered, later, others, rfl⟩

theorem lowerMembers_eq_error {members : List WireType} {e : SetupError}
    (failed : WireType.lowerMembers members = .error e) : ∃ member ∈ members, member.lower = .error e := by
  induction members with
  | nil => cases failed
  | cons member rest ih =>
    rw [WireType.lowerMembers] at failed
    cases lowered : member.lower with
    | error cause =>
      rw [lowered] at failed
      cases failed
      exact ⟨member, List.mem_cons_self, lowered⟩
    | ok type => cases later : WireType.lowerMembers rest with
      | ok types =>
        rw [lowered, later] at failed
        cases failed
      | error cause =>
        rw [lowered, later] at failed
        cases failed
        obtain ⟨other, listed, stops⟩ := ih later
        exact ⟨other, List.mem_cons_of_mem _ listed, stops⟩

theorem lowerProps_cons {context : String} {p : Property WireType} {rest : List (Property WireType)}
    {lowered : List (Property TypeExpr)} : WireType.lowerProps context (p :: rest) = .ok lowered ↔
      ∃ type later, Lowers (some p.name, p.type) type ∧ WireType.lowerProps context rest = .ok later ∧
        ⟨p.name, type, p.optional⟩ :: later = lowered := by
  obtain ⟨name, type, optional⟩ := p
  rw [WireType.lowerProps]
  unfold Lowers
  cases type.lower with
  | ok meant => simp [except_bind_eq_ok_iff, pure, Except.pure]
  | error e =>
    by_cases reserved : name = attrsKey
    · simp [reserved, except_bind_eq_ok_iff, pure, Except.pure]
    · simp [reserved]

/-- Properties are lowered one by one, and an `attrs` without a meaning to an empty object. -/
theorem lowerProps_eq_ok_iff {context : String} {props : List (Property WireType)}
    {lowered : List (Property TypeExpr)} : WireType.lowerProps context props = .ok lowered ↔
      List.Forall₂ (fun p q => p.head = q.head ∧ Lowers (some p.name, p.type) q.type) props lowered := by
  induction props generalizing lowered with
  | nil => rw [WireType.lowerProps, List.forall₂_nil_left_iff, Except.ok.injEq, eq_comm]
  | cons p rest ih =>
    rw [lowerProps_cons, List.forall₂_cons_left_iff]
    simp only [ih]
    constructor
    · rintro ⟨type, later, lowers, others, rfl⟩
      exact ⟨_, later, ⟨rfl, lowers⟩, others, rfl⟩
    · rintro ⟨⟨name, type, optional⟩, later, ⟨same, lowers⟩, others, rfl⟩
      obtain ⟨rfl, rfl⟩ := Prod.mk.inj same
      exact ⟨type, later, lowers, others, rfl⟩

/-- Only the type of a property that is not reserved makes properties fail, and the error names the
property. -/
theorem lowerProps_eq_error {context : String} {props : List (Property WireType)} {e : SetupError}
    (failed : WireType.lowerProps context props = .error e) : ∃ p ∈ props, p.name ≠ attrsKey ∧
      ∃ cause, p.type.lower = .error cause ∧ e = .inProperty context p.name cause := by
  induction props with
  | nil => cases failed
  | cons p rest ih =>
    obtain ⟨name, type, optional⟩ := p
    have further {first : Property TypeExpr}
        (failed : (WireType.lowerProps context rest >>= fun later => pure (first :: later)) = .error e) :
        ∃ p ∈ ⟨name, type, optional⟩ :: rest, p.name ≠ attrsKey ∧
          ∃ cause, p.type.lower = .error cause ∧ e = .inProperty context p.name cause := by
      cases later : WireType.lowerProps context rest with
      | ok lowered =>
        rw [later] at failed
        cases failed
      | error cause =>
        rw [later] at failed
        cases failed
        obtain ⟨p, listed, stops⟩ := ih later
        exact ⟨p, List.mem_cons_of_mem _ listed, stops⟩
    rw [WireType.lowerProps] at failed
    cases lowered : type.lower with
    | ok meant =>
      rw [lowered] at failed
      exact further failed
    | error cause =>
      simp only [lowered] at failed
      by_cases reserved : name = attrsKey
      · rw [if_pos reserved] at failed
        exact further failed
      · rw [if_neg reserved] at failed
        cases failed
        exact ⟨_, List.mem_cons_self, reserved, cause, lowered, rfl⟩

/-- A form is lowered to the same form of what is nested in it. -/
theorem exists_of_lower_wire {form : TypeForm WireType} {type : TypeExpr} (lowered : form.wire.lower = .ok type) :
    ∃ meant : TypeForm TypeExpr, meant.expr = type ∧ form.skeleton = meant.skeleton ∧
      List.Forall₂ (fun part image => Lowers part image.2) form.nested meant.nested := by
  cases form with
  | reference name =>
    cases lowered
    exact ⟨.reference name, rfl, rfl, .nil⟩
  | array element =>
    obtain ⟨meant, inner, rfl⟩ := except_map_eq_ok_iff.mp lowered
    exact ⟨.array meant, rfl, rfl, .cons (Or.inl inner) .nil⟩
  | parameterized tag argument =>
    obtain ⟨meant, inner, rfl⟩ := except_map_eq_ok_iff.mp lowered
    exact ⟨.parameterized tag meant, rfl, rfl, .cons (Or.inl inner) .nil⟩
  | generic tag argument =>
    obtain ⟨meant, inner, rfl⟩ := except_map_eq_ok_iff.mp lowered
    exact ⟨.generic tag meant, rfl, rfl, .cons (Or.inl inner) .nil⟩
  | union members =>
    obtain ⟨types, inner, rfl⟩ := except_map_eq_ok_iff.mp lowered
    have each := lowerMembers_eq_ok_iff.mp inner
    refine ⟨.union types, rfl, congrArg TypeForm.union (map_eq_map_iff.mpr (each.imp fun _ _ _ => rfl)), ?_⟩
    · rw [TypeForm.nested, TypeForm.nested, List.forall₂_map_left_iff, List.forall₂_map_right_iff]
      exact each.imp fun _ _ lowered => Or.inl lowered
  | literal props =>
    obtain ⟨declared, inner, rfl⟩ := except_map_eq_ok_iff.mp lowered
    have each := lowerProps_eq_ok_iff.mp inner
    refine ⟨.literal declared, rfl, congrArg TypeForm.literal (map_eq_map_iff.mpr (each.imp ?_)), ?_⟩
    · exact fun p q related => Property.map_unit_eq_iff.mpr related.1
    · rw [TypeForm.nested, TypeForm.nested, List.forall₂_map_left_iff, List.forall₂_map_right_iff]
      exact each.imp fun _ _ related => related.2

theorem lower_wire_of_each {form : TypeForm WireType} {meant : TypeForm TypeExpr}
    (alike : form.skeleton = meant.skeleton)
    (each : List.Forall₂ (fun part image => Lowers part image.2) form.nested meant.nested) :
    form.wire.lower = .ok meant.expr := by
  have inner {argument : WireType} {type : TypeExpr} (only : Lowers (none, argument) type) :
      argument.lower = .ok type := only.resolve_right fun exempt => nomatch exempt.1
  cases form with
  | reference name => cases meant with
    | reference => cases alike; rfl
    | _ => cases alike
  | array element => cases meant with
    | array => cases each with
      | cons only _ => exact except_map_eq_ok_iff.mpr ⟨_, inner only, rfl⟩
    | _ => cases alike
  | parameterized tag argument => cases meant with
    | parameterized =>
      cases alike
      cases each with
      | cons only _ => exact except_map_eq_ok_iff.mpr ⟨_, inner only, rfl⟩
    | _ => cases alike
  | generic tag argument => cases meant with
    | generic =>
      cases alike
      cases each with
      | cons only _ => exact except_map_eq_ok_iff.mpr ⟨_, inner only, rfl⟩
    | _ => cases alike
  | union members => cases meant with
    | union types =>
      rw [TypeForm.nested, TypeForm.nested, List.forall₂_map_left_iff, List.forall₂_map_right_iff] at each
      exact except_map_eq_ok_iff.mpr ⟨types, lowerMembers_eq_ok_iff.mpr (each.imp fun _ _ only => inner only), rfl⟩
    | _ => cases alike
  | literal props => cases meant with
    | literal declared =>
      rw [TypeForm.nested, TypeForm.nested, List.forall₂_map_left_iff, List.forall₂_map_right_iff] at each
      have heads := map_eq_map_iff.mp (TypeForm.literal.inj alike)
      have both := List.forall₂_iff_zip.mpr ⟨heads.length_eq, fun pair =>
        And.intro (Property.map_unit_eq_iff.mp (List.forall₂_zip heads pair)) (List.forall₂_zip each pair)⟩
      exact except_map_eq_ok_iff.mpr ⟨declared, lowerProps_eq_ok_iff.mpr both, rfl⟩
    | _ => cases alike

/-- A form fails at one of its parts. -/
theorem lower_wire_eq_error {form : TypeForm WireType} {e : SetupError} (failed : form.wire.lower = .error e) :
    ∃ part ∈ form.nested, part.1 ≠ some attrsKey ∧ ∃ cause, part.2.lower = .error cause ∧
      e = cause.behind part.1.toList := by
  cases form with
  | reference name => cases failed
  | array element | parameterized _ argument | generic _ argument =>
    have inner := except_map_eq_error_iff.mp failed
    exact ⟨_, List.mem_singleton_self _, nofun, e, inner, rfl⟩
  | union members =>
    obtain ⟨member, listed, stops⟩ := lowerMembers_eq_error (except_map_eq_error_iff.mp failed)
    exact ⟨_, List.mem_map_of_mem listed, nofun, e, stops, rfl⟩
  | literal props =>
    obtain ⟨p, listed, free, cause, stops, rfl⟩ := lowerProps_eq_error (except_map_eq_error_iff.mp failed)
    exact ⟨_, List.mem_map_of_mem listed, fun same => free (Option.some.inj same), cause, stops, rfl⟩

end Lower

section Meaning

variable {value : Json} {fields : Fields Json} {form : TypeForm Json} {type : TypeExpr}

theorem Scalar.ofName?_name (kind : Scalar) : Scalar.ofName? kind.name = some kind := by
  cases kind <;> decide

theorem Scalar.name_of_ofName? {word : String} {kind : Scalar} (known : Scalar.ofName? word = some kind) :
    kind.name = word := by
  have named := List.find?_some known
  exact of_decide_eq_true named

/-- A word names a scalar or is an illegal type. -/
theorem lower_keyword (word : String) : (WireType.keyword word).lower =
    match Scalar.ofName? word with
    | some kind => .ok (.scalar kind)
    | none => .error (.illegalType (Json.quote word)) := by
  cases known : Scalar.ofName? word <;> simp only [WireType.lower, known]

/-- An object of a known form is accepted where the nested types that count are. -/
theorem accepted_obj_iff (first : FirstForm fields form) :
    Accepted (.obj fields) ↔ ∀ part ∈ form.nested, part.1 ≠ some attrsKey → Accepted part.2 := by
  constructor
  · intro accepted
    cases accepted with
    | object other each =>
      obtain rfl := first.unique other
      exact each
  · exact .object first

/-- How an object of a known form fails: one of the nested types that count does. -/
theorem lower_obj_eq_error (distinct : (Json.obj fields).Distinct) (first : FirstForm fields form) {e : SetupError}
    (failed : (WireType.ofJson (.obj fields)).lower = .error e) :
    ∃ part ∈ form.nested, part.1 ≠ some attrsKey ∧ ∃ cause, (WireType.ofJson part.2).lower = .error cause ∧
      e = cause.behind part.1.toList := by
  rw [first.ofJson distinct] at failed
  obtain ⟨_, member, counts, cause, stops, rfl⟩ := lower_wire_eq_error failed
  rw [TypeForm.nested_map] at member
  obtain ⟨part, listed, rfl⟩ := List.mem_map.mp member
  exact ⟨part, listed, counts, cause, stops, rfl⟩

/-- What an object of a known form means: the same form of what the nested types mean. -/
theorem lower_obj_eq_ok_iff (distinct : (Json.obj fields).Distinct) (first : FirstForm fields form) :
    (WireType.ofJson (.obj fields)).lower = .ok type ↔
      ∃ meant : TypeForm TypeExpr, meant.expr = type ∧ form.skeleton = meant.skeleton ∧
        List.Forall₂ (fun part image => Lowers (Prod.map id .ofJson part) image.2) form.nested meant.nested := by
  rw [first.ofJson distinct]
  constructor
  · intro lowered
    obtain ⟨meant, same, alike, each⟩ := exists_of_lower_wire lowered
    rw [TypeForm.nested_map, List.forall₂_map_left_iff] at each
    exact ⟨meant, same, (TypeForm.skeleton_map _ form).symm.trans alike, each⟩
  · rintro ⟨meant, rfl, alike, each⟩
    refine lower_wire_of_each ((TypeForm.skeleton_map _ form).trans alike) ?_
    rw [TypeForm.nested_map, List.forall₂_map_left_iff]
    exact each

/-- What is refused stops at a value without a known form, behind the properties that lead to it. -/
def Refused (value : Json) (e : SetupError) : Prop :=
  ∃ path part, TypeAt value path part ∧ Formless part ∧ e = (SetupError.illegalType part.render).behind path

theorem Formless.refused (formless : Formless value) : Refused value (.illegalType value.render) :=
  ⟨[], value, .here value, formless, rfl⟩

/-- What has no form is an illegal type. -/
theorem lower_formless (distinct : value.Distinct) (formless : Formless value) :
    (WireType.ofJson value).lower = .error (.illegalType value.render) := by
  cases value with
  | null => exact absurd rfl formless.notNull
  | str word =>
    have lowered := lower_keyword word
    cases known : Scalar.ofName? word with
    | some kind => exact absurd (congrArg Json.str (Scalar.name_of_ofName? known).symm) (formless.notKeyword kind)
    | none =>
      rw [known] at lowered
      exact lowered
  | obj fields => rw [WireType.ofJson_of_formless distinct (formless.notForm fields rfl)]; rfl
  | _ => rfl

/-- What stands for a type is `null`, a keyword or an object of a known form. -/
theorem Json.null_or_keyword_or_form (value : Json) : value = .null ∨ (∃ kind : Scalar, value = .str kind.name) ∨
    (∃ fields form, value = .obj fields ∧ FirstForm fields form) ∨ Formless value := by
  cases value with
  | null => exact Or.inl rfl
  | str word =>
    cases known : Scalar.ofName? word with
    | some kind => exact Or.inr (Or.inl ⟨kind, congrArg Json.str (Scalar.name_of_ofName? known).symm⟩)
    | none =>
      refine Or.inr (Or.inr (Or.inr ⟨nofun, fun kind same => ?_, nofun⟩))
      rw [Json.str.inj same, Scalar.ofName?_name] at known
      cases known
  | obj fields =>
    by_cases has : ∃ form, HasForm fields form
    · obtain ⟨form, has⟩ := has
      obtain ⟨first, isFirst⟩ := has.exists_first
      exact Or.inr (Or.inr (Or.inl ⟨fields, first, rfl, isFirst⟩))
    · refine Or.inr (Or.inr (Or.inr ⟨nofun, nofun, fun _ same form found => has ⟨form, ?_⟩⟩))
      exact Json.obj.inj same ▸ found
  | _ => exact Or.inr (Or.inr (Or.inr ⟨nofun, nofun, nofun⟩))

theorem not_accepted_of_formless (formless : Formless value) : ¬Accepted value := by
  intro accepted
  cases accepted with
  | null => exact formless.notNull rfl
  | keyword kind => exact formless.notKeyword kind rfl
  | object first _ => exact formless.notForm _ rfl _ first.has

/-- Every value is lowered exactly where it stands for a type. -/
theorem lower_ofJson_or_refused (value : Json) (distinct : value.Distinct) :
    (∃ type, (WireType.ofJson value).lower = .ok type ∧ Accepted value) ∨
      ∃ e, (WireType.ofJson value).lower = .error e ∧ ¬Accepted value ∧ Refused value e := by
  induction size : sizeOf value using Nat.strong_induction_on generalizing value with
  | _ size ih =>
    rcases value.null_or_keyword_or_form with rfl | ⟨kind, rfl⟩ | ⟨fields, form, rfl, first⟩ | formless
    · exact Or.inl ⟨_, rfl, .null⟩
    · have lowered := lower_keyword kind.name
      rw [Scalar.ofName?_name] at lowered
      exact Or.inl ⟨_, lowered, .keyword kind⟩
    · have inside (part : Option String × Json) (member : part ∈ form.nested) :=
        ih _ (size ▸ (first.has.below member).smaller) part.2 ((first.has.below member).distinct distinct) rfl
      cases lowered : (WireType.ofJson (.obj fields)).lower with
      | ok type =>
        obtain ⟨meant, _, _, each⟩ := (lower_obj_eq_ok_iff distinct first).mp lowered
        refine Or.inl ⟨type, rfl, .object first fun part member counts => ?_⟩
        -- A nested type that counts was lowered.
        have lowers : ∀ part ∈ form.nested, ∃ image, Lowers (Prod.map id .ofJson part) image :=
          Shape.forall_right_of_forall₂ each.flip fun image _ part lowers => ⟨image.2, lowers⟩
        obtain ⟨image, own | ⟨exempt, _⟩⟩ := lowers part member
        · rcases inside part member with ⟨_, _, accepted⟩ | ⟨e, failed, _⟩
          · exact accepted
          · cases own.symm.trans failed
        · exact absurd exempt counts
      | error e =>
        obtain ⟨part, member, counts, cause, stops, rfl⟩ := lower_obj_eq_error distinct first lowered
        rcases inside part member with ⟨_, own, _⟩ | ⟨other, failed, refused, path, culprit, at_path, formless, meant⟩
        · cases own.symm.trans stops
        · obtain rfl := Except.error.inj (failed.symm.trans stops)
          refine Or.inr ⟨_, rfl, fun accepted => refused ((accepted_obj_iff first).mp accepted part member counts),
            part.1.toList ++ path, culprit, .inside first member counts at_path, formless, ?_⟩
          rw [meant, SetupError.behind, SetupError.behind, SetupError.behind, List.foldr_append]
    · exact Or.inr ⟨_, lower_formless distinct formless, not_accepted_of_formless formless, formless.refused⟩

/-- A value is lowered exactly when the grammar accepts it. -/
theorem lower_ofJson_ok_iff_accepted (distinct : value.Distinct) :
    (∃ type, (WireType.ofJson value).lower = .ok type) ↔ Accepted value := by
  rcases lower_ofJson_or_refused value distinct with ⟨type, lowered, accepted⟩ | ⟨e, failed, refused, _⟩
  · exact iff_of_true ⟨type, lowered⟩ accepted
  · exact iff_of_false (fun ⟨_, lowered⟩ => nomatch failed.symm.trans lowered) refused

/-- A value is lowered to the type that it mirrors. -/
theorem lower_of_mirrors (mirrors : Mirrors value type) (distinct : value.Distinct) :
    (WireType.ofJson value).lower = .ok type := by
  induction mirrors with
  | null => rfl
  | keyword kind =>
    have lowered := lower_keyword kind.name
    rw [Scalar.ofName?_name] at lowered
    exact lowered
  | @object fields form meant first alike _ spared ih =>
    refine (lower_obj_eq_ok_iff distinct first).mpr ⟨meant, rfl, alike, List.forall₂_iff_zip.mpr ⟨?_, ?_⟩⟩
    · exact TypeForm.length_nested_of_skeleton alike
    · intro part image pair
      have inside := (first.has.below (List.of_mem_zip pair).1).distinct distinct
      by_cases counts : part.1 = some attrsKey → Accepted part.2
      · exact Or.inl (ih (part, image) pair counts inside)
      · obtain ⟨exempt, refused⟩ := Classical.not_imp.mp counts
        rcases lower_ofJson_or_refused part.2 inside with ⟨_, _, accepted⟩ | ⟨e, failed, _⟩
        · exact absurd accepted refused
        · exact Or.inr ⟨exempt, ⟨e, failed⟩, spared (part, image) pair exempt refused⟩

/-- A value mirrors the type that it is lowered to. -/
theorem mirrors_of_lower (distinct : value.Distinct) (lowered : (WireType.ofJson value).lower = .ok type) :
    Mirrors value type := by
  induction size : sizeOf value using Nat.strong_induction_on generalizing value type with
  | _ size ih =>
    rcases value.null_or_keyword_or_form with rfl | ⟨kind, rfl⟩ | ⟨fields, form, rfl, first⟩ | formless
    · cases lowered
      exact .null
    · have known := lower_keyword kind.name
      rw [Scalar.ofName?_name] at known
      cases lowered.symm.trans known
      exact .keyword kind
    · obtain ⟨meant, rfl, alike, each⟩ := (lower_obj_eq_ok_iff distinct first).mp lowered
      have below {part : Option String × Json} {image : Option String × TypeExpr}
          (pair : (part, image) ∈ form.nested.zip meant.nested) := first.has.below (List.of_mem_zip pair).1
      refine .object first alike (fun (part, image) pair counts => ?_) fun (part, image) pair exempt refused => ?_
      · rcases List.forall₂_zip each pair with own | ⟨exempt, ⟨e, failed⟩, _⟩
        · exact ih _ (size ▸ (below pair).smaller) ((below pair).distinct distinct) own rfl
        · obtain ⟨_, own⟩ := (lower_ofJson_ok_iff_accepted ((below pair).distinct distinct)).mpr (counts exempt)
          cases own.symm.trans failed
      · rcases List.forall₂_zip each pair with own | ⟨_, _, empty⟩
        · exact absurd ((lower_ofJson_ok_iff_accepted ((below pair).distinct distinct)).mp ⟨_, own⟩) refused
        · exact empty
    · cases lowered.symm.trans (lower_formless distinct formless)

end Meaning

/-- A value stands for a type exactly where it is `null`, a keyword, or an object in whose first form the
nested types that count do. The type mirrors it. A form with a nested type that stands for none is not
tried as another one; the error says which value that is and which properties lead to it. -/
theorem lowering_accepts_grammar {value : Json} (distinct : value.Distinct) :
    ((∃ type, (WireType.ofJson value).lower = .ok type) ↔ Accepted value) ∧
    (∀ type, (WireType.ofJson value).lower = .ok type ↔ Mirrors value type) ∧
    (∀ fields form, value = .obj fields → FirstForm fields form →
      (∃ part ∈ form.nested, part.1 ≠ some attrsKey ∧ ¬Accepted part.2) →
      ∃ e, (WireType.ofJson value).lower = .error e) ∧
    ∀ e, (WireType.ofJson value).lower = .error e → ∃ path part, TypeAt value path part ∧ Formless part ∧
      e = (SetupError.illegalType part.render).behind path ∧ e.root = .illegalType part.render := by
  refine ⟨lower_ofJson_ok_iff_accepted distinct, fun type => ⟨mirrors_of_lower distinct, fun mirrors =>
    lower_of_mirrors mirrors distinct⟩, ?_, ?_⟩
  · rintro fields form rfl first ⟨part, member, counts, refused⟩
    rcases lower_ofJson_or_refused _ distinct with ⟨_, _, accepted⟩ | ⟨e, failed, _⟩
    · exact absurd ((accepted_obj_iff first).mp accepted part member counts) refused
    · exact ⟨e, failed⟩
  · intro e failed
    rcases lower_ofJson_or_refused value distinct with
      ⟨_, lowered, _⟩ | ⟨other, failed', _, path, part, at_path, formless, rfl⟩
    · cases lowered.symm.trans failed
    · obtain rfl := Except.error.inj (failed'.symm.trans failed)
      exact ⟨path, part, at_path, formless, rfl, SetupError.root_behind path _⟩

section Stays

/-- A list of stays, whose keys would do for a union as well. -/
def staysType : Json :=
  .obj [("unionMembers", .arr []), ("arrayElementType", .obj [("properties", .arr
    [.obj [("name", .str attrsKey), ("type", .str "date")], .arr [.str "paid", .str "boolean", .bool true]])])]

/-- The same with a property of no known type. -/
def datedType : Json :=
  .obj [("unionMembers", .arr []), ("arrayElementType", .obj [("props", .arr
    [.obj [("type", .arr []), ("name", .str "from")]])])]

theorem lowering_accepts_grammar_stays :
    Accepted staysType ∧
    Mirrors staysType (.array (.literal [⟨attrsKey, .literal [], false⟩, ⟨"paid", .scalar .boolean, true⟩])) ∧
    ∃ e, (WireType.ofJson datedType).lower = .error e ∧ ∃ path part, TypeAt datedType path part ∧ Formless part ∧
      e = (SetupError.illegalType part.render).behind path ∧ e.root = .illegalType part.render := by
  have distinct : staysType.Distinct := by
    simp [staysType, attrsKey, Json.Distinct, Json.DistinctFields, Json.DistinctItems, Fields.keys]
  have distinctDated : datedType.Distinct := by
    simp [datedType, Json.Distinct, Json.DistinctFields, Json.DistinctItems, Fields.keys]
  refine ⟨(lowering_accepts_grammar distinct).1.mp ⟨_, rfl⟩, ((lowering_accepts_grammar distinct).2.1 _).mp rfl, ?_⟩
  exact ⟨_, rfl,
    (lowering_accepts_grammar distinctDated).2.2.2 (.inProperty literalContext "from" (.illegalType "[]")) rfl⟩

end Stays

end Conform
