import Conform.Proofs.TypeTree
import Conform.Target

namespace Conform

variable {ω : Type}

mutual

/-- Every list of properties in a type names each property once. -/
def TypeExpr.Distinct : TypeExpr → Prop
  | .scalar _ => True
  | .reference _ => True
  | .array element => Distinct element
  | .union members => membersDistinct members
  | .literal props => (props.map Property.name).Nodup ∧ propsDistinct props
  | .generic _ argument => Distinct argument
  | .parameterized _ argument => Distinct argument

def TypeExpr.membersDistinct : List TypeExpr → Prop
  | [] => True
  | member :: rest => Distinct member ∧ membersDistinct rest

def TypeExpr.propsDistinct : List (Property TypeExpr) → Prop
  | [] => True
  | ⟨_, type, _⟩ :: rest => Distinct type ∧ propsDistinct rest

end

def Schema.Distinct (s : Schema) : Prop := (TypeExpr.literal s.props).Distinct

mutual

/-- The type with every reference replaced by what is known under the name. Arrays are the only
generic types. -/
def TypeExpr.expand (known : String → Option (TypeTree ω)) : TypeExpr → Option (TypeTree ω)
  | .scalar kind => some (.scalar kind)
  | .reference name => known name
  | .array element => (expand known element).map .array
  | .union members => (expandMembers known members).map .union
  | .literal props => (expandProps known props).map (.record none (declaresAttrs props))
  | .generic tag argument => if tag = arrayTag then (expand known argument).map .array else none
  | .parameterized tag argument => if tag = arrayTag then (expand known argument).map .array else none

def TypeExpr.expandMembers (known : String → Option (TypeTree ω)) :
    List TypeExpr → Option (List (TypeTree ω))
  | [] => some []
  | member :: rest => do
    let first ← expand known member
    return first :: (← expandMembers known rest)

/-- The properties other than `attrs`, whose type plays no part. -/
def TypeExpr.expandProps (known : String → Option (TypeTree ω)) :
    List (Property TypeExpr) → Option (List (Property (TypeTree ω)))
  | [] => some []
  | ⟨name, type, optional⟩ :: rest =>
    if name = attrsKey then expandProps known rest
    else do
      let first ← expand known type
      return ⟨name, first, optional⟩ :: (← expandProps known rest)

end

def Schema.expand (known : String → Option (TypeTree ω)) (s : Schema) : Option (TypeTree ω) :=
  (TypeExpr.expandProps known s.props).map (.record (some s.name) (declaresAttrs s.props))

def Target.expand (known : String → Option (TypeTree ω)) : Target → Option (TypeTree ω)
  | named name => known name
  | generic tag argument => if tag = arrayTag then (expand known argument).map .array else none

/-- Induction on a type, with the claim at hand for every member and every property. -/
theorem TypeExpr.induction {motive : TypeExpr → Prop} (scalar : ∀ kind, motive (.scalar kind))
    (reference : ∀ name, motive (.reference name)) (array : ∀ element, motive element → motive (.array element))
    (union : ∀ members, (∀ member ∈ members, motive member) → motive (.union members))
    (literal : ∀ props, (∀ p ∈ props, motive p.type) → motive (.literal props))
    (generic : ∀ tag argument, motive argument → motive (.generic tag argument))
    (parameterized : ∀ tag argument, motive argument → motive (.parameterized tag argument)) :
    ∀ type : TypeExpr, motive type := by
  refine @TypeExpr.rec motive (fun members => ∀ member ∈ members, motive member)
    (fun props => ∀ p ∈ props, motive p.type) (fun p => motive p.type)
    scalar reference array union literal generic parameterized ?_ ?_ ?_ ?_ ?_
  · exact fun _ member => nomatch member
  · exact fun member rest first others => List.forall_mem_cons.mpr ⟨first, others⟩
  · exact fun _ member => nomatch member
  · exact fun p rest first others => List.forall_mem_cons.mpr ⟨first, others⟩
  · exact fun _ _ _ claim => claim

/-- What a scope answers for names is known as a tree, and its only factory is that of arrays. -/
structure Scope.Explained (scope : Scope ω) (known : String → Option (TypeTree ω)) : Prop where
  resolved : ∀ name shape, scope.resolve name = .ok shape → ∃ tree, known name = some tree ∧ tree.shape = shape
  arrays : ∀ tag make, scope.factory tag = .ok make → tag = arrayTag ∧ make = .array

/-- The only factory of an explained scope makes arrays. -/
theorem Scope.Explained.array_of_factory {scope : Scope ω} {known : String → Option (TypeTree ω)}
    (explained : scope.Explained known) {tag : String} {argument : Except SetupError (Shape ω)} {shape : Shape ω}
    (elaborated : (do let make ← scope.factory tag; argument.map make) = .ok shape) :
    tag = arrayTag ∧ ∃ inner, argument = .ok inner ∧ shape = .array inner := by
  obtain ⟨make, found, mapped⟩ := except_bind_eq_ok_iff.mp elaborated
  obtain ⟨rfl, rfl⟩ := explained.arrays tag make found
  obtain ⟨inner, first, rfl⟩ := except_map_eq_ok_iff.mp mapped
  exact ⟨rfl, inner, first, rfl⟩

section Elaborate

variable {scope : Scope ω} {known : String → Option (TypeTree ω)}

/-- Members that are elaborated are expanded one by one to the same shapes. -/
theorem TypeExpr.expandMembers_of_elaborate {members : List TypeExpr}
    (each : ∀ member ∈ members, ∀ shape, member.elaborate scope = .ok shape →
      ∃ tree, member.expand known = some tree ∧ tree.shape = shape)
    {shapes : List (Shape ω)} (elaborated : elaborateMembers scope members = .ok shapes) :
    ∃ trees, expandMembers known members = some trees ∧ TypeTree.shapes trees = shapes := by
  induction members generalizing shapes with
  | nil =>
    simp only [elaborateMembers, Except.ok.injEq] at elaborated
    exact ⟨[], rfl, elaborated⟩
  | cons member rest ih =>
    obtain ⟨eachFirst, eachRest⟩ := List.forall_mem_cons.mp each
    simp only [elaborateMembers, except_bind_eq_ok_iff] at elaborated
    obtain ⟨shape, first, others, later, equal⟩ := elaborated
    obtain ⟨tree, expanded, rfl⟩ := eachFirst shape first
    obtain ⟨trees, expandedRest, rfl⟩ := ih eachRest later
    cases equal
    exact ⟨tree :: trees, by simp [expandMembers, expanded, expandedRest], rfl⟩

section Props

variable {context : String} {optional : Bool} {shapes : List (String × Shape ω)}

/-- The reserved property and those of the other side are passed over. -/
theorem TypeExpr.elaborateProps_skip {name : String} {type : TypeExpr} {isOptional : Bool}
    (skipped : name = attrsKey ∨ isOptional ≠ optional) (rest : List (Property TypeExpr)) :
    elaborateProps scope context optional (⟨name, type, isOptional⟩ :: rest) =
      elaborateProps scope context optional rest := by
  rw [elaborateProps, if_pos skipped]

theorem TypeExpr.elaborateProps_keep_eq_ok {name : String} {type : TypeExpr} {isOptional : Bool}
    (kept : ¬(name = attrsKey ∨ isOptional ≠ optional)) {rest : List (Property TypeExpr)}
    (elaborated : elaborateProps scope context optional (⟨name, type, isOptional⟩ :: rest) = .ok shapes) :
    ∃ shape others, type.elaborate scope = .ok shape ∧ elaborateProps scope context optional rest = .ok others ∧
      shapes = (name, shape) :: others := by
  rw [elaborateProps, if_neg kept] at elaborated
  cases here : type.elaborate scope with
  | error e =>
    rw [here] at elaborated
    cases elaborated
  | ok shape =>
    rw [here] at elaborated
    obtain ⟨others, later, equal⟩ := except_bind_eq_ok_iff.mp elaborated
    cases equal
    exact ⟨shape, others, rfl, later, rfl⟩

theorem TypeExpr.elaborateProps_eq_nil {props : List (Property TypeExpr)}
    (absent : ∀ p ∈ props, p.isAttrs = false → p.optional ≠ optional) :
    elaborateProps scope context optional props = .ok [] := by
  induction props with
  | nil => rfl
  | cons p rest ih =>
    obtain ⟨name, type, isOptional⟩ := p
    obtain ⟨here, later⟩ := List.forall_mem_cons.mp absent
    have skipped : name = attrsKey ∨ isOptional ≠ optional := by
      by_cases reserved : name = attrsKey
      · exact Or.inl reserved
      · exact Or.inr (here (by simp [Property.isAttrs, reserved]))
    rw [elaborateProps_skip skipped, ih later]

/-- The reserved key is never among the declared ones. -/
theorem TypeExpr.attrs_not_mem_elaborateProps {props : List (Property TypeExpr)}
    (elaborated : elaborateProps scope context optional props = .ok shapes) : attrsKey ∉ Fields.keys shapes := by
  induction props generalizing shapes with
  | nil =>
    cases elaborated
    exact List.not_mem_nil
  | cons first rest ih =>
    obtain ⟨name, type, isOptional⟩ := first
    by_cases skipped : name = attrsKey ∨ isOptional ≠ optional
    · rw [elaborateProps_skip skipped] at elaborated
      exact ih elaborated
    · obtain ⟨shape, others, _, later, rfl⟩ := elaborateProps_keep_eq_ok skipped elaborated
      rw [Fields.keys_cons, List.mem_cons, not_or]
      exact ⟨fun same => skipped (Or.inl same.symm), ih later⟩

theorem TypeExpr.mem_elaborateProps {props : List (Property TypeExpr)} {p : Property TypeExpr} (member : p ∈ props)
    (declared : p.isAttrs = false) (same : p.optional = optional)
    (elaborated : elaborateProps scope context optional props = .ok shapes) :
    ∃ shape, p.type.elaborate scope = .ok shape ∧ (p.name, shape) ∈ shapes := by
  induction props generalizing shapes with
  | nil => cases member
  | cons first rest ih =>
    obtain ⟨name, type, isOptional⟩ := first
    by_cases skipped : name = attrsKey ∨ isOptional ≠ optional
    · rw [elaborateProps_skip skipped] at elaborated
      rcases List.mem_cons.mp member with rfl | later
      · rcases skipped with reserved | other
        · simp [Property.isAttrs, reserved] at declared
        · exact absurd same other
      · exact ih later elaborated
    · obtain ⟨shape, others, here, rest, rfl⟩ := elaborateProps_keep_eq_ok skipped elaborated
      rcases List.mem_cons.mp member with rfl | later
      · exact ⟨shape, here, List.mem_cons_self⟩
      · obtain ⟨shape, found, listed⟩ := ih later rest
        exact ⟨shape, found, List.mem_cons_of_mem _ listed⟩

theorem TypeExpr.exists_expandProps {props : List (Property TypeExpr)}
    (each : ∀ p ∈ props, p.isAttrs = false → ∃ tree, p.type.expand known = some tree) :
    ∃ trees, expandProps known props = some trees := by
  induction props with
  | nil => exact ⟨[], rfl⟩
  | cons p rest ih =>
    obtain ⟨name, type, isOptional⟩ := p
    obtain ⟨here, later⟩ := List.forall_mem_cons.mp each
    obtain ⟨trees, expandedRest⟩ := ih later
    by_cases reserved : name = attrsKey
    · exact ⟨trees, by rw [expandProps, if_pos reserved, expandedRest]⟩
    · obtain ⟨tree, expanded⟩ := here (by simp [Property.isAttrs, reserved])
      exact ⟨⟨name, tree, isOptional⟩ :: trees, by simp [expandProps, reserved, expanded, expandedRest]⟩

theorem TypeExpr.propShapes_of_expandProps {props : List (Property TypeExpr)}
    (each : ∀ p ∈ props, ∀ shape, p.type.elaborate scope = .ok shape →
      ∃ tree, p.type.expand known = some tree ∧ tree.shape = shape)
    {trees : List (Property (TypeTree ω))} (expanded : expandProps known props = some trees)
    (elaborated : elaborateProps scope context optional props = .ok shapes) :
    TypeTree.propShapes optional trees = shapes := by
  induction props generalizing trees shapes with
  | nil =>
    cases expanded
    cases elaborated
    rfl
  | cons p rest ih =>
    obtain ⟨name, type, isOptional⟩ := p
    obtain ⟨eachFirst, eachRest⟩ := List.forall_mem_cons.mp each
    by_cases reserved : name = attrsKey
    · rw [expandProps, if_pos reserved] at expanded
      rw [elaborateProps_skip (Or.inl reserved)] at elaborated
      exact ih eachRest expanded elaborated
    · rw [expandProps, if_neg reserved] at expanded
      simp only [Option.bind_eq_bind, Option.bind_eq_some_iff] at expanded
      obtain ⟨first, here, others, later, equal⟩ := expanded
      cases equal
      by_cases same : isOptional = optional
      · have kept : ¬(name = attrsKey ∨ isOptional ≠ optional) := not_or.mpr ⟨reserved, not_not.mpr same⟩
        obtain ⟨shape, otherShapes, hereShape, laterShapes, rfl⟩ := elaborateProps_keep_eq_ok kept elaborated
        obtain ⟨tree, sameTree, rfl⟩ := eachFirst shape hereShape
        cases here.symm.trans sameTree
        rw [TypeTree.propShapes, if_pos same, ih eachRest later laterShapes]
      · rw [elaborateProps_skip (Or.inr same)] at elaborated
        rw [TypeTree.propShapes, if_neg same, ih eachRest later elaborated]

/-- Properties that are elaborated on both sides are expanded to the same shapes. -/
theorem TypeExpr.expandProps_of_elaborate {props : List (Property TypeExpr)}
    (each : ∀ p ∈ props, ∀ shape, p.type.elaborate scope = .ok shape →
      ∃ tree, p.type.expand known = some tree ∧ tree.shape = shape)
    {required optional : List (String × Shape ω)}
    (first : elaborateProps scope context false props = .ok required)
    (second : elaborateProps scope context true props = .ok optional) :
    ∃ trees, expandProps known props = some trees ∧
      TypeTree.propShapes false trees = required ∧ TypeTree.propShapes true trees = optional := by
  have elaborates : ∀ p ∈ props, p.isAttrs = false → ∃ tree, p.type.expand known = some tree := by
    intro p member declared
    have shaped : ∃ shape, p.type.elaborate scope = .ok shape := by
      cases kind : p.optional with
      | false =>
        obtain ⟨shape, elaborated, _⟩ := mem_elaborateProps member declared kind first
        exact ⟨shape, elaborated⟩
      | true =>
        obtain ⟨shape, elaborated, _⟩ := mem_elaborateProps member declared kind second
        exact ⟨shape, elaborated⟩
    obtain ⟨shape, elaborated⟩ := shaped
    obtain ⟨tree, expanded, _⟩ := each p member shape elaborated
    exact ⟨tree, expanded⟩
  obtain ⟨trees, expanded⟩ := exists_expandProps elaborates
  exact ⟨trees, expanded, propShapes_of_expandProps each expanded first, propShapes_of_expandProps each expanded second⟩

end Props

/-- An object type stands for a shape through the shapes of its properties. -/
theorem assemble_elaborateProps {name : Option String} {props : List (Property TypeExpr)} {context : String}
    {shape : Shape ω} (assembled : assemble name props (TypeExpr.elaborateProps scope context false props)
      (TypeExpr.elaborateProps scope context true props) = .ok shape) :
    ∃ required optional, TypeExpr.elaborateProps scope context false props = .ok required ∧
      TypeExpr.elaborateProps scope context true props = .ok optional ∧
      shape = .ofProps name (declaresAttrs props) required optional := by
  have declared : ∀ p, p ∈ props.filter (fun p => !p.isAttrs) ↔ p ∈ props ∧ p.isAttrs = false := by simp
  cases someRequired : (props.filter fun p => !p.isAttrs).any (!·.optional) with
  | false =>
    have noRequired : TypeExpr.elaborateProps scope context false props = .ok [] := by
      refine TypeExpr.elaborateProps_eq_nil fun p member isDeclared same => ?_
      have := List.any_eq_false.mp someRequired p ((declared p).mpr ⟨member, isDeclared⟩)
      simp [same] at this
    cases someOptional : (props.filter fun p => !p.isAttrs).any (·.optional) with
    | false =>
      simp only [assemble, someRequired, someOptional] at assembled
      cases assembled
    | true =>
      simp only [assemble, someRequired, someOptional, except_bind_eq_ok_iff, except_map_eq_ok_iff] at assembled
      obtain ⟨_, ⟨optional, second, rfl⟩, equal⟩ := assembled
      cases equal
      exact ⟨[], optional, noRequired, second, rfl⟩
  | true =>
    obtain ⟨p, member, isRequired⟩ := List.any_eq_true.mp someRequired
    obtain ⟨inProps, isDeclared⟩ := (declared p).mp member
    have nonempty {required : List (String × Shape ω)}
        (first : TypeExpr.elaborateProps scope context false props = .ok required) : required ≠ [] := by
      obtain ⟨_, _, listed⟩ := TypeExpr.mem_elaborateProps inProps isDeclared (by simpa using isRequired) first
      exact List.ne_nil_of_mem listed
    cases someOptional : (props.filter fun p => !p.isAttrs).any (·.optional) with
    | false =>
      have noOptional : TypeExpr.elaborateProps scope context true props = .ok [] := by
        refine TypeExpr.elaborateProps_eq_nil fun p member isDeclared same => ?_
        exact List.any_eq_false.mp someOptional p ((declared p).mpr ⟨member, isDeclared⟩) same
      simp only [assemble, someRequired, someOptional, except_bind_eq_ok_iff, except_map_eq_ok_iff] at assembled
      obtain ⟨_, ⟨required, first, rfl⟩, equal⟩ := assembled
      cases equal
      refine ⟨required, [], first, noOptional, ?_⟩
      rw [Shape.ofProps, Shape.ofParts_strict name (nonempty first)]
    | true =>
      obtain ⟨q, member', isOptional⟩ := List.any_eq_true.mp someOptional
      obtain ⟨inProps', isDeclared'⟩ := (declared q).mp member'
      simp only [assemble, someRequired, someOptional, except_bind_eq_ok_iff] at assembled
      obtain ⟨required, first, optional, second, _, built, equal⟩ := assembled
      cases built
      cases equal
      obtain ⟨_, _, listed⟩ := TypeExpr.mem_elaborateProps inProps' isDeclared' isOptional second
      refine ⟨required, optional, first, second, ?_⟩
      rw [Shape.ofProps, Shape.ofParts_both name (nonempty first) (List.ne_nil_of_mem listed)]

/-- A type that stands for a shape expands to a tree of that shape. -/
theorem TypeExpr.expand_of_elaborate (explained : scope.Explained known) (type : TypeExpr) :
    ∀ shape, type.elaborate scope = .ok shape → ∃ tree, type.expand known = some tree ∧ tree.shape = shape := by
  induction type using TypeExpr.induction with
  | scalar kind =>
    intro shape elaborated
    cases elaborated
    exact ⟨.scalar kind, rfl, rfl⟩
  | reference name => exact explained.resolved name
  | array element ih =>
    intro shape elaborated
    obtain ⟨inner, first, rfl⟩ := except_map_eq_ok_iff.mp elaborated
    obtain ⟨tree, expanded, rfl⟩ := ih inner first
    exact ⟨.array tree, by simp [expand, expanded], rfl⟩
  | union members ih =>
    intro shape elaborated
    rw [elaborate] at elaborated
    split at elaborated
    · cases elaborated
    · obtain ⟨shapes, each, rfl⟩ := except_map_eq_ok_iff.mp elaborated
      obtain ⟨trees, expanded, rfl⟩ := expandMembers_of_elaborate ih each
      exact ⟨.union trees, by simp [expand, expanded], rfl⟩
  | literal props ih =>
    intro shape elaborated
    obtain ⟨required, optional, first, second, rfl⟩ := assemble_elaborateProps elaborated
    obtain ⟨trees, expanded, rfl, rfl⟩ := expandProps_of_elaborate ih first second
    exact ⟨.record none (declaresAttrs props) trees, by simp [expand, expanded], rfl⟩
  | generic tag argument ih | parameterized tag argument ih =>
    intro shape elaborated
    obtain ⟨rfl, inner, first, rfl⟩ := explained.array_of_factory elaborated
    obtain ⟨tree, expanded, rfl⟩ := ih inner first
    exact ⟨.array tree, by simp [expand, expanded], rfl⟩

/-- A schema that is elaborated is expanded to a record of the same shape. -/
theorem Schema.expand_of_elaborate (explained : scope.Explained known) {s : Schema} {shape : Shape ω}
    (elaborated : s.elaborate scope = .ok shape) :
    ∃ trees, s.expand known = some (.record (some s.name) (declaresAttrs s.props) trees) ∧
      (TypeTree.record (some s.name) (declaresAttrs s.props) trees).shape = shape := by
  obtain ⟨required, optional, first, second, rfl⟩ := assemble_elaborateProps elaborated
  obtain ⟨trees, expanded, rfl, rfl⟩ := TypeExpr.expandProps_of_elaborate
    (fun p _ => p.type.expand_of_elaborate explained) first second
  exact ⟨trees, by simp [expand, expanded], rfl⟩

theorem Target.expand_of_elaborate (explained : scope.Explained known) (target : Target) :
    ∀ shape, target.elaborate scope = .ok shape → ∃ tree, target.expand known = some tree ∧ tree.shape = shape := by
  induction target with
  | named name => exact explained.resolved name
  | generic tag argument ih =>
    intro shape elaborated
    obtain ⟨rfl, inner, first, rfl⟩ := explained.array_of_factory elaborated
    obtain ⟨tree, expanded, rfl⟩ := ih inner first
    exact ⟨.array tree, by simp [expand, expanded], rfl⟩

end Elaborate

section WellFormed

variable {known : String → Option (TypeTree ω)}

theorem TypeExpr.membersDistinct_iff {members : List TypeExpr} :
    membersDistinct members ↔ ∀ member ∈ members, member.Distinct := by
  induction members with
  | nil => simp [membersDistinct]
  | cons member rest ih => simp [membersDistinct, ih]

theorem TypeExpr.propsDistinct_iff {props : List (Property TypeExpr)} :
    propsDistinct props ↔ ∀ p ∈ props, p.type.Distinct := by
  induction props with
  | nil => simp [propsDistinct]
  | cons p rest ih => simp [propsDistinct, ih]

theorem TypeExpr.mem_of_expandMembers {members : List TypeExpr} {trees : List (TypeTree ω)}
    (expanded : expandMembers known members = some trees) :
    ∀ tree ∈ trees, ∃ member ∈ members, member.expand known = some tree := by
  induction members generalizing trees with
  | nil =>
    cases expanded
    simp
  | cons member rest ih =>
    simp only [expandMembers, Option.bind_eq_bind, Option.bind_eq_some_iff] at expanded
    obtain ⟨first, here, others, later, equal⟩ := expanded
    cases equal
    refine List.forall_mem_cons.mpr ⟨⟨member, List.mem_cons_self, here⟩, fun tree inRest => ?_⟩
    obtain ⟨origin, inMembers, same⟩ := ih later tree inRest
    exact ⟨origin, List.mem_cons_of_mem _ inMembers, same⟩

/-- Every expanded property was declared, and none under the reserved name. -/
theorem TypeExpr.of_expandProps {props : List (Property TypeExpr)} {trees : List (Property (TypeTree ω))}
    (expanded : expandProps known props = some trees) :
    (trees.map Property.name).Sublist (props.map Property.name) ∧ attrsKey ∉ trees.map Property.name ∧
      ∀ p ∈ trees, ∃ q ∈ props, q.type.expand known = some p.type := by
  induction props generalizing trees with
  | nil =>
    cases expanded
    exact ⟨.slnil, List.not_mem_nil, by simp⟩
  | cons p rest ih =>
    obtain ⟨name, type, optional⟩ := p
    by_cases reserved : name = attrsKey
    · rw [expandProps, if_pos reserved] at expanded
      obtain ⟨names, free, origins⟩ := ih expanded
      refine ⟨names.cons _, free, fun p member => ?_⟩
      obtain ⟨q, inRest, same⟩ := origins p member
      exact ⟨q, List.mem_cons_of_mem _ inRest, same⟩
    · rw [expandProps, if_neg reserved] at expanded
      simp only [Option.bind_eq_bind, Option.bind_eq_some_iff] at expanded
      obtain ⟨first, here, others, later, equal⟩ := expanded
      cases equal
      obtain ⟨names, free, origins⟩ := ih later
      refine ⟨names.cons_cons _, ?_, List.forall_mem_cons.mpr ⟨⟨_, List.mem_cons_self, here⟩, fun p member => ?_⟩⟩
      · rw [List.map_cons, List.mem_cons, not_or]
        exact ⟨fun same => reserved same.symm, free⟩
      · obtain ⟨q, inRest, same⟩ := origins p member
        exact ⟨q, List.mem_cons_of_mem _ inRest, same⟩

/-- A record of well-formed properties with distinct names is well-formed. -/
theorem TypeExpr.record_wellFormed {book : String → Option (TypeTree ω)} {props : List (Property TypeExpr)}
    {trees : List (Property (TypeTree ω))} (nodup : (props.map Property.name).Nodup)
    (expanded : expandProps known props = some trees)
    (each : ∀ p ∈ props, ∀ tree, p.type.expand known = some tree → tree.WellFormed book)
    (name : Option String) (attrs : Bool) : (TypeTree.record name attrs trees).WellFormed book := by
  obtain ⟨names, free, origins⟩ := of_expandProps expanded
  refine .record (nodup.sublist names) free fun p member => ?_
  obtain ⟨q, inProps, same⟩ := origins p member
  exact each q inProps _ same

/-- A type with distinct properties expands to a well-formed tree over well-formed trees. -/
theorem TypeExpr.wellFormed_of_expand {book : String → Option (TypeTree ω)}
    (listed : ∀ name tree, known name = some tree → tree.WellFormed book) (type : TypeExpr) :
    type.Distinct → ∀ tree, type.expand known = some tree → tree.WellFormed book := by
  induction type using TypeExpr.induction with
  | scalar kind =>
    intro _ tree expanded
    cases expanded
    exact .scalar kind
  | reference name => exact fun _ => listed name
  | array element ih =>
    intro distinct tree expanded
    obtain ⟨inner, first, rfl⟩ := Option.map_eq_some_iff.mp expanded
    exact .array (ih distinct inner first)
  | union members ih =>
    intro distinct tree expanded
    obtain ⟨trees, all, rfl⟩ := Option.map_eq_some_iff.mp expanded
    refine .union fun tree member => ?_
    obtain ⟨origin, inMembers, same⟩ := mem_of_expandMembers all tree member
    exact ih origin inMembers (membersDistinct_iff.mp distinct origin inMembers) tree same
  | literal props ih =>
    intro distinct tree expanded
    obtain ⟨trees, all, rfl⟩ := Option.map_eq_some_iff.mp expanded
    obtain ⟨nodup, each⟩ := distinct
    exact record_wellFormed nodup all
      (fun p member => ih p member (propsDistinct_iff.mp each p member)) none (declaresAttrs props)
  | generic tag argument ih | parameterized tag argument ih =>
    intro distinct tree expanded
    rw [expand] at expanded
    split at expanded
    · obtain ⟨inner, first, rfl⟩ := Option.map_eq_some_iff.mp expanded
      exact .array (ih distinct inner first)
    · cases expanded

/-- A schema with distinct names expands to a well-formed tree. -/
theorem Schema.wellFormed_of_expand {book : String → Option (TypeTree ω)}
    (listed : ∀ name tree, known name = some tree → tree.WellFormed book) {s : Schema} (distinct : s.Distinct)
    {tree : TypeTree ω} (expanded : s.expand known = some tree) : tree.WellFormed book := by
  obtain ⟨trees, all, rfl⟩ := Option.map_eq_some_iff.mp expanded
  obtain ⟨nodup, each⟩ := distinct
  exact TypeExpr.record_wellFormed nodup all (fun p member =>
    p.type.wellFormed_of_expand listed (TypeExpr.propsDistinct_iff.mp each p member)) _ _

theorem Target.wellFormed_of_expand {book : String → Option (TypeTree ω)}
    (listed : ∀ name tree, known name = some tree → tree.WellFormed book) (target : Target) :
    ∀ tree, target.expand known = some tree → tree.WellFormed book := by
  induction target with
  | named name => exact listed name
  | generic tag argument ih =>
    intro tree expanded
    rw [expand] at expanded
    split at expanded
    · obtain ⟨inner, first, rfl⟩ := Option.map_eq_some_iff.mp expanded
      exact .array (ih inner first)
    · cases expanded

end WellFormed

end Conform
