import Conform.Proofs.AttrsType
import Conform.Proofs.LastDeclaration
import Conform.Proofs.Order
import Conform.Proofs.Shape.Alike

namespace Conform

open Shape (PropsAlike)

variable {ω : Type}

/-- The second type has a reference to a name in the place of some of the literals with given properties. -/
inductive TypeExpr.Refers (props : List (Property TypeExpr)) (name : String) : TypeExpr → TypeExpr → Prop
  | here : Refers props name (.literal props) (.reference name)
  | same (type : TypeExpr) : Refers props name type type
  | element {a b : TypeExpr} : Refers props name a b → Refers props name (.array a) (.array b)
  | members {members others : List TypeExpr} (length : members.length = others.length)
      (each : ∀ pair ∈ members.zip others, Refers props name pair.1 pair.2) :
      Refers props name (.union members) (.union others)
  | props {own others : List (Property TypeExpr)} (heads : own.map Property.head = others.map Property.head)
      (each : ∀ pair ∈ own.zip others, Refers props name pair.1.type pair.2.type) :
      Refers props name (.literal own) (.literal others)
  | generic (tag : String) {a b : TypeExpr} : Refers props name a b → Refers props name (.generic tag a) (.generic tag b)
  | parameterized (tag : String) {a b : TypeExpr} :
      Refers props name a b → Refers props name (.parameterized tag a) (.parameterized tag b)

/-- The second schema has a reference to a name in the place of some of the literals with given properties. -/
structure Schema.Refers (props : List (Property TypeExpr)) (name : String) (s t : Schema) : Prop where
  named : s.name = t.name
  heads : s.props.map Property.head = t.props.map Property.head
  each : ∀ pair ∈ s.props.zip t.props, pair.1.type.Refers props name pair.2.type

/-- The factories of a scope make shapes that are alike of shapes that are alike. -/
def Scope.Congruent (scope : Scope ω) : Prop :=
  ∀ tag make, scope.factory tag = .ok make → ∀ a b : Shape ω, a.Alike b → (make a).Alike (make b)

section Elaborate

variable {props others : List (Property TypeExpr)}

theorem assemble_matches_alike {required required' optional optional' : Except SetupError (List (String × Shape ω))}
    (heads : props.map Property.head = others.map Property.head) (first : Matches PropsAlike required required')
    (second : Matches PropsAlike optional optional') (name : Option String) :
    Matches Shape.Alike (assemble name props required optional) (assemble name others required' optional') :=
  assemble_matches heads first second name (fun _ _ alike => Shape.object_alike alike _ _ false)
    (fun _ _ alike => Shape.object_alike alike _ _ true)
    (fun _ _ _ _ left right => Shape.intersection_alike left right _ _)
    fun _ _ alike => Shape.withAttrsIf_alike alike true

end Elaborate

/-- Where a name stands for the object type of some properties, a type stands for a shape that is alike if some of the
literals with these properties refer to the name instead. -/
theorem TypeExpr.Refers.elaborate_matches {scope : Scope ω} {props : List (Property TypeExpr)} {name : String}
    (congruent : scope.Congruent)
    (stands : Matches Shape.Alike ((TypeExpr.literal props).elaborate scope) (scope.resolve name)) {a b : TypeExpr}
    (refers : a.Refers props name b) : Matches Shape.Alike (a.elaborate scope) (b.elaborate scope) := by
  have made {tag : String} {a b : TypeExpr} (ih : Matches Shape.Alike (a.elaborate scope) (b.elaborate scope)) :
      Matches Shape.Alike (do let make ← scope.factory tag; (a.elaborate scope).map make)
        (do let make ← scope.factory tag; (b.elaborate scope).map make) := by
    cases found : scope.factory tag with
    | error e => exact .error e
    | ok make => exact ih.map (congruent tag make found)
  induction refers with
  | here =>
    rw [elaborate.eq_def scope (.reference name)]
    exact stands
  | same type =>
    cases type.elaborate scope with
    | error e => exact .error e
    | ok shape => exact .ok (.refl shape)
  | element _ ih =>
    rw [elaborate, elaborate]
    exact ih.map fun a b => Shape.array_alike
  | @members own others length each ih =>
    have empty : own.isEmpty = others.isEmpty := by
      rw [Bool.eq_iff_iff, List.isEmpty_iff_length_eq_zero, List.isEmpty_iff_length_eq_zero, length]
    rw [elaborate, elaborate, empty]
    split
    · exact .error _
    · refine (elaborateMembers_matches ?_).map fun as bs => Shape.oneOf_alike
      exact List.forall₂_iff_zip.mpr ⟨length, fun listed => ih _ listed⟩
  | props heads each ih =>
    rw [elaborate, elaborate]
    exact assemble_matches_alike heads (elaborateProps_matches heads ih _ false)
      (elaborateProps_matches heads ih _ true) none
  | generic tag _ ih | parameterized tag _ ih =>
    rw [elaborate, elaborate]
    exact made ih

/-- A schema that inlines a definition is elaborated like the one that names it. -/
theorem Schema.Refers.elaborate_matches {scope : Scope ω} {props : List (Property TypeExpr)} {name : String}
    (congruent : scope.Congruent)
    (stands : Matches Shape.Alike ((TypeExpr.literal props).elaborate scope) (scope.resolve name)) {s t : Schema}
    (refers : s.Refers props name t) : Matches Shape.Alike (s.elaborate scope) (t.elaborate scope) := by
  have each := fun pair listed => (refers.each pair listed).elaborate_matches congruent stands
  rw [elaborate, elaborate, refers.named]
  exact assemble_matches_alike refers.heads (elaborateProps_matches refers.heads each _ false)
    (elaborateProps_matches refers.heads each _ true) _

/-- An object type stands for the same whatever it is called, but for the name. -/
theorem object_relabel {scope : Scope ω} {props : List (Property TypeExpr)} {label : Option String} {shape : Shape ω}
    (made : scope.object label props = .ok shape) (other : Option String) :
    ∃ twin, scope.object other props = .ok twin ∧ twin.Alike shape := by
  obtain ⟨sound, rfl⟩ := eq_ofDeclared_of_object made
  obtain ⟨twin, madeToo⟩ : ∃ twin, scope.object other props = .ok twin := assemble_ok_iff.mpr sound
  obtain ⟨_, rfl⟩ := eq_ofDeclared_of_object madeToo
  exact ⟨_, madeToo, Shape.ofProps_alike (.refl _) (.refl _) other label _⟩

namespace Registry

variable {r : Registry ω} {s t : Schema} {props : List (Property TypeExpr)} {name : String}

/-- A registered schema can be elaborated again to the shape of its name. -/
theorem Holds.exists_shape (holds : r.Holds (.schema s)) :
    ∃ shape, s.elaborate r.scope = .ok shape ∧ r.resolve s.name = .ok shape := by
  obtain ⟨entries, made, slots⟩ := holds
  obtain ⟨shape, elaborated, rfl⟩ := except_map_eq_ok_iff.mp made
  exact ⟨shape, elaborated, resolve_eq_ok_iff.mpr ⟨declaresAttrs s.props, slots _ _ (by simp [Fields.get?])⟩⟩

/-- What is registered stands for the same while another name is being registered. -/
theorem Holds.during (holds : r.Holds (.schema s)) {own : String} (free : r.Free own) :
    ∃ shape, s.elaborate (r.setSlot own .resolving).scope = .ok shape ∧
      (r.setSlot own .resolving).resolve s.name = .ok shape := by
  obtain ⟨shape, elaborated, resolved⟩ := holds.exists_shape
  have same {other : String} (known : r.scope.Knows other) : (r.setSlot own .resolving).resolve other = r.resolve other := by
    have different : other ≠ own := by
      rintro rfl
      exact free.not_knows known
    simp only [resolve, slot?_setSlot, if_neg different]
  refine ⟨shape, ?_, (same ⟨shape, resolved⟩).trans resolved⟩
  rw [← elaborated]
  refine s.elaborate_congr (fun other mentioned => same ?_) fun tag => rfl
  exact s.elaborate_ok_iff_sound.mp ⟨shape, elaborated⟩ (.reference other) mentioned

theorem registerSchema_of_start {during : Registry ω} {wasPending : Bool}
    (started : r.start s.name = .ok (during, wasPending)) : (r.registerSchema s).2 = s.elaborate during.scope := by
  rw [registerSchema, started]
  simp only
  split <;> simp only [*]

/-- A schema and one that refers to a registered schema in the place of its literals are registered alike. -/
theorem registerSchema_matches (congruent : r.scope.Congruent) (holds : r.Holds (.schema ⟨name, props⟩))
    (refers : s.Refers props name t) : Matches Shape.Alike (r.registerSchema s).2 (r.registerSchema t).2 := by
  cases started : r.start s.name with
  | error e =>
    have startedToo : r.start t.name = .error e := refers.named ▸ started
    rw [registerSchema, registerSchema, started, startedToo]
    exact .error e
  | ok result =>
    obtain ⟨during, wasPending⟩ := result
    have startedToo : r.start t.name = .ok (during, wasPending) := refers.named ▸ started
    rw [registerSchema_of_start started, registerSchema_of_start startedToo]
    obtain ⟨rfl, free, _⟩ := start_eq_ok started
    obtain ⟨shape, elaborated, resolved⟩ := holds.during free
    obtain ⟨twin, literal, alike⟩ := object_relabel elaborated none
    have congruentToo : (r.setSlot s.name .resolving).scope.Congruent := congruent
    refine refers.elaborate_matches congruentToo ?_
    have isLiteral : (TypeExpr.literal props).elaborate (r.setSlot s.name .resolving).scope = .ok twin := by
      rw [TypeExpr.elaborate_literal_eq_object, literal]
    have isReference : (r.setSlot s.name .resolving).scope.resolve name = .ok shape := resolved
    rw [isLiteral, isReference]
    exact .ok alike

theorem name_of_registerSchema {shape : Shape ω} (done : (r.registerSchema s).2 = .ok shape) : shape.name = s.name := by
  obtain ⟨_, elaborated, _⟩ := registerSchema_eq_ok (Prod.ext rfl done)
  obtain ⟨required, optional, _, _, rfl⟩ := assemble_elaborateProps elaborated
  exact Shape.name_ofProps _ _ _ _

end Registry

theorem optional_of_declaration? {scope : Scope ω} {p : Property TypeExpr} {decl : Property (Shape ω)}
    (found : scope.declaration? p = some decl) : decl.optional = p.optional := by
  rw [Scope.declaration?, (of_declaration? found).1, if_neg Bool.false_ne_true] at found
  obtain ⟨shape, _, rfl⟩ := Option.map_eq_some_iff.mp found
  rfl

theorem side_eq_nil {scope : Scope ω} {props : List (Property TypeExpr)} {optional : Bool}
    (same : ∀ p ∈ props, p.isAttrs = false → p.optional = optional) :
    Shape.side (!optional) (scope.declarations props) = [] := by
  refine List.eq_nil_iff_forall_not_mem.mpr fun entry listed => ?_
  obtain ⟨decl, member, kind, _⟩ := Shape.mem_side.mp listed
  obtain ⟨p, inProps, found⟩ := List.mem_filterMap.mp member
  rw [optional_of_declaration? found, same p inProps (of_declaration? found).1] at kind
  exact (Bool.eq_not_self optional).mp kind

/-- A registered schema with given properties does what a literal with these properties does in its place: wherever some
of the literals refer to the schema instead, registration ends alike, and the same values are taken, decoded and
encoded. Where both reject, the same is said at the same places of the same values, repeats included. What is left of it
in the two reports stands at the same places in the same order of first occurrence, and place by place side by side where
the same repeats on both sides. Of a value that is no object the schema speaks once, and so does the literal if its keys
are all required or all optional. -/
theorem literal_matches_reference {r : Registry ω} {name : String} {props : List (Property TypeExpr)}
    (congruent : r.scope.Congruent) (holds : r.Holds (.schema ⟨name, props⟩)) :
    (∀ s t : Schema, s.Refers props name t →
      (∃ e, (r.registerSchema s).2 = .error e ∧ (r.registerSchema t).2 = .error e) ∨
      ∃ inlined referring, (r.registerSchema s).2 = .ok inlined ∧ (r.registerSchema t).2 = .ok referring ∧
        inlined.name = referring.name ∧ (∀ d, inlined.encode d = referring.encode d) ∧
        ∀ input here, Shape.outcome (inlined.validate input here) = Shape.outcome (referring.validate input here) ∧
          ∀ found found', inlined.validate input here = .error (.invalid found) →
            referring.validate input here = .error (.invalid found') →
            List.Forall₂ Mismatch.Beside (inlined.remarks input here) (referring.remarks input here) ∧
            (found.map Mismatch.place).eraseDups = (found'.map Mismatch.place).eraseDups ∧
            ((∀ p ∈ (inlined.remarks input here).zip (referring.remarks input here),
                ∀ q ∈ (inlined.remarks input here).zip (referring.remarks input here), p.1.same q.1 = p.2.same q.2) →
              List.Forall₂ Mismatch.Beside found found')) ∧
    ∃ literal reference, (TypeExpr.literal props).elaborate r.scope = .ok literal ∧ r.resolve name = .ok reference ∧
      ∀ input, (∀ fields, input ≠ .obj fields) → ∀ here,
        reference.validate input here = .error (.single here name (some input)) ∧
        ((∃ optional, ∀ p ∈ props, p.isAttrs = false → p.optional = optional) →
          ∃ expected, literal.validate input here = .error (.single here expected (some input))) := by
  constructor
  · intro s t refers
    have related := Registry.registerSchema_matches congruent holds refers
    generalize first : (r.registerSchema s).2 = one, second : (r.registerSchema t).2 = two at related
    cases related with
    | error e => exact Or.inl ⟨e, rfl, rfl⟩
    | @ok inlined referring alike =>
      have named : inlined.name = referring.name := by
        rw [Registry.name_of_registerSchema first, Registry.name_of_registerSchema second, refers.named]
      refine Or.inr ⟨inlined, referring, rfl, rfl, named, alike.encode, fun input here => ?_⟩
      have parallel := alike.parallel input here
      refine ⟨parallel.outcome, fun found found' rejected rejected' => ?_⟩
      have echo := parallel.echo rejected rejected'
      exact ⟨echo.beside, echo.eraseDups_places_eq, echo.forall₂_beside⟩
  · obtain ⟨reference, elaborated, resolved⟩ := holds.exists_shape
    obtain ⟨literal, isLiteral, _⟩ := object_relabel elaborated none
    obtain ⟨_, rfl⟩ := eq_ofDeclared_of_object elaborated
    refine ⟨literal, _, TypeExpr.elaborate_literal_eq_object props r.scope ▸ isLiteral, resolved,
      fun input notObj here => ?_⟩
    refine ⟨Shape.validate_ofProps_of_not_obj notObj _ _ _ _ here, fun ⟨optional, same⟩ => ?_⟩
    obtain ⟨_, rfl⟩ := eq_ofDeclared_of_object isLiteral
    refine Shape.exists_single_of_not_obj notObj _ ?_ here
    cases optional with
    | true => exact Or.inl (side_eq_nil same)
    | false => exact Or.inr (side_eq_nil same)

section Spot

def pointProps : List (Property TypeExpr) := [⟨"lat", .scalar .number, false⟩]

def pointSchema : Schema := ⟨"Point", pointProps⟩

def pointRegistry : Registry Empty := (Registry.empty.register (.schema pointSchema)).1

theorem pointRegistry_holds : pointRegistry.Holds (.schema ⟨"Point", pointProps⟩) :=
  Registry.holds_of_register (r := Registry.empty) (d := .schema pointSchema) rfl

/-- The factory of arrays is all that a new registry has. -/
theorem congruent_of_factories {r : Registry ω} (stock : r.factories = [(arrayTag, .array)]) : r.scope.Congruent := by
  intro tag make found a b alike
  simp only [Registry.scope, Registry.factory, stock, Fields.get?] at found
  by_cases isArray : arrayTag = tag
  · rw [if_pos isArray] at found
    cases found
    exact Shape.array_alike alike
  · rw [if_neg isArray] at found
    cases found

/-- A place that is a point or nothing, and a note. -/
def spotSchema (place : TypeExpr) : Schema :=
  ⟨"Spot", [⟨"places", .array (.union [place, .scalar .null]), false⟩, ⟨"note", .scalar .string, true⟩]⟩

def pointType : TypeExpr := .literal pointProps

theorem spot_refers (place place' : TypeExpr) (refers : place.Refers pointProps "Point" place') :
    (spotSchema place).Refers pointProps "Point" (spotSchema place') where
  named := rfl
  heads := rfl
  each := by
    refine List.forall_mem_cons.mpr ⟨.element (.members rfl ?_), List.forall_mem_singleton.mpr (.same _)⟩
    exact List.forall_mem_cons.mpr ⟨refers, List.forall_mem_singleton.mpr (.same _)⟩

def spotInput : Json := .obj [("places", .arr [.num (.int 7), .null]), ("note", .bool true)]

def spotFound (expected : String) : List Mismatch :=
  [⟨"Spot.places.0", expected, some (.num (.int 7))⟩, ⟨"Spot.places.0", "null", some (.num (.int 7))⟩,
    ⟨"Spot.note", "string", some (.bool true)⟩]

theorem literal_matches_reference_spot : ∃ inlined referring literal reference : Shape Empty,
    pointRegistry.scope.Congruent ∧ pointRegistry.Holds (.schema ⟨"Point", pointProps⟩) ∧
    (spotSchema pointType).Refers pointProps "Point" (spotSchema (.reference "Point")) ∧
    (pointRegistry.registerSchema (spotSchema pointType)).2 = .ok inlined ∧
    (pointRegistry.registerSchema (spotSchema (.reference "Point"))).2 = .ok referring ∧
    (∀ d, inlined.encode d = referring.encode d) ∧
    inlined.validate spotInput (.top "Spot") = .error (.invalid (spotFound "\x7b lat: number \x7d")) ∧
    referring.validate spotInput (.top "Spot") = .error (.invalid (spotFound "Point")) ∧
    List.Forall₂ Mismatch.Beside (spotFound "\x7b lat: number \x7d") (spotFound "Point") ∧
    pointType.elaborate pointRegistry.scope = .ok literal ∧ pointRegistry.resolve "Point" = .ok reference ∧
    reference.validate .null (.top "Point") = .error (.single (.top "Point") "Point" (some .null)) ∧
    ∃ expected, literal.validate .null (.top "Point") = .error (.single (.top "Point") expected (some .null)) := by
  have congruent : pointRegistry.scope.Congruent := congruent_of_factories rfl
  have refers := spot_refers pointType (.reference "Point") .here
  obtain ⟨schemas, literal, reference, elaborated, resolved, notObj⟩ :=
    literal_matches_reference congruent pointRegistry_holds
  rcases schemas _ _ refers with ⟨e, failed, _⟩ | ⟨inlined, referring, first, second, _, encodes, validates⟩
  · cases failed
  · cases first
    cases second
    cases elaborated
    cases resolved
    have notNull : ∀ fields, (Json.null) ≠ .obj fields := by
      rintro fields ⟨⟩
    obtain ⟨_, reports⟩ := validates spotInput (.top "Spot")
    obtain ⟨_, _, sideBySide⟩ := reports _ _ rfl rfl
    obtain ⟨once, literally⟩ := notObj .null notNull (.top "Point")
    refine ⟨_, _, _, _, congruent, pointRegistry_holds, refers, rfl, rfl, encodes, rfl, rfl, sideBySide ?_, rfl, rfl, once,
      literally ⟨false, ?_⟩⟩
    · decide
    · decide

end Spot

section Differ

/-- A schema with one property and a factory on the way to its type. -/
def holderSchema (type : TypeExpr) : Schema := ⟨"Holder", [⟨"part", type, false⟩]⟩

theorem holder_refers {props : List (Property TypeExpr)} {name : String} {type type' : TypeExpr}
    (refers : type.Refers props name type') : (holderSchema type).Refers props name (holderSchema type') where
  named := rfl
  heads := rfl
  each := List.forall_mem_singleton.mpr refers

def crateProps : List (Property TypeExpr) := [⟨"content", .generic "Box" (.scalar .string), false⟩]

/-- A registry in which the factory of boxes was replaced after crates were registered. -/
def crateRegistry : Registry Empty :=
  ((Registry.empty.registerFactory "Box" id).register (.schema ⟨"Crate", crateProps⟩)).1.registerFactory "Box"
    fun content => .union [content, .null]

/-- A registry with a factory that looks at the name of what it is given. -/
def namingRegistry : Registry Empty :=
  pointRegistry.registerFactory "Plain" fun shape => if shape.name = "Point" then shape else .array shape

/-- A union says once what the schema says at two of its members and twice what the literal and the schema say; a
literal is made by the factories there are, and a registered schema by those there were; and a factory may tell them
apart by their names. -/
theorem literal_differs_from_reference :
    (∃ inlined referring : Shape Empty,
      (holderSchema (.union [pointType, .reference "Point"])).Refers pointProps "Point"
        (holderSchema (.union [.reference "Point", .reference "Point"])) ∧
      (pointRegistry.registerSchema (holderSchema (.union [pointType, .reference "Point"]))).2 = .ok inlined ∧
      (pointRegistry.registerSchema (holderSchema (.union [.reference "Point", .reference "Point"]))).2 = .ok referring ∧
      inlined.validate (.obj [("part", .null)]) (.top "Holder") =
        .error (.invalid [⟨"Holder.part", "\x7b lat: number \x7d", some .null⟩, ⟨"Holder.part", "Point", some .null⟩]) ∧
      referring.validate (.obj [("part", .null)]) (.top "Holder") =
        .error (.invalid [⟨"Holder.part", "Point", some .null⟩])) ∧
    (∃ inlined referring : Shape Empty,
      (holderSchema (.literal crateProps)).Refers crateProps "Crate" (holderSchema (.reference "Crate")) ∧
      (crateRegistry.registerSchema (holderSchema (.literal crateProps))).2 = .ok inlined ∧
      (crateRegistry.registerSchema (holderSchema (.reference "Crate"))).2 = .ok referring ∧
      inlined.validate (.obj [("part", .obj [("content", .null)])]) (.top "Holder") =
        .ok (.obj [("part", .obj [("content", .null)])]) ∧
      referring.validate (.obj [("part", .obj [("content", .null)])]) (.top "Holder") =
        .error (.invalid [⟨"Holder.part.content", "string", some .null⟩])) ∧
    ∃ inlined referring : Shape Empty,
      (holderSchema (.generic "Plain" pointType)).Refers pointProps "Point"
        (holderSchema (.generic "Plain" (.reference "Point"))) ∧
      (namingRegistry.registerSchema (holderSchema (.generic "Plain" pointType))).2 = .ok inlined ∧
      (namingRegistry.registerSchema (holderSchema (.generic "Plain" (.reference "Point")))).2 = .ok referring ∧
      inlined.validate (.obj [("part", .arr [])]) (.top "Holder") = .ok (.obj [("part", .arr [])]) ∧
      referring.validate (.obj [("part", .arr [])]) (.top "Holder") =
        .error (.invalid [⟨"Holder.part", "Point", some (.arr [])⟩]) := by
  have members : ∀ pair ∈ [pointType, .reference "Point"].zip [.reference "Point", .reference "Point"],
      pair.1.Refers pointProps "Point" pair.2 :=
    List.forall_mem_cons.mpr ⟨.here, List.forall_mem_singleton.mpr (.same _)⟩
  exact ⟨⟨_, _, holder_refers (.members rfl members), rfl, rfl, rfl, rfl⟩,
    ⟨_, _, holder_refers .here, rfl, rfl, rfl, rfl⟩,
    _, _, holder_refers (.generic "Plain" .here), rfl, rfl, rfl, rfl⟩

end Differ

end Conform
