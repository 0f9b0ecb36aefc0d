import Conform.Proofs.RoundTrip

namespace Conform

variable {ω : Type}

namespace Shape

/-- A shape is part of itself and, at any depth, of the shapes that are put together from it. -/
inductive Part (part : Shape ω) : Shape ω → Prop
  | whole : Part part part
  | element {element : Shape ω} : Part part element → Part part (array element)
  | member {members : List (Shape ω)} {member : Shape ω} (listed : member ∈ members) :
      Part part member → Part part (union members)
  | prop {name : String} {props : List (String × Shape ω)} {lenient : Bool} {prop : String × Shape ω}
      (listed : prop ∈ props) : Part part prop.2 → Part part (object name props lenient)
  | left {name : String} {left right : Shape ω} : Part part left → Part part (intersection name left right)
  | right {name : String} {left right : Shape ω} : Part part right → Part part (intersection name left right)
  | base {name : String} {base : Shape ω} {accepts : Decoded ω → Bool} :
      Part part base → Part part (refine name base accepts)
  | inner {inner : Shape ω} : Part part inner → Part part (withAttrs inner)
  | structural {className : String} {inner : Shape ω} {showsAttrs : Bool}
      {construct : Json → Except String (Product ω)} :
      Part part inner → Part part (ofClass className inner showsAttrs construct)

namespace Part

variable {members : List (Shape ω)} {name : Option String} {required optional : List (String × Shape ω)}

/-- A part of a union is the union itself or a part of a member. -/
theorem of_union {shapes : List (Shape ω)} (part : Part (union members) (union shapes)) :
    members = shapes ∨ ∃ member ∈ shapes, Part (union members) member := by
  cases part with
  | whole => exact Or.inl rfl
  | member listed inside => exact Or.inr ⟨_, listed, inside⟩

/-- One member alone stands for itself and is no union. -/
theorem of_oneOf {shapes : List (Shape ω)} (part : Part (union members) (oneOf shapes)) :
    members = shapes ∨ ∃ member ∈ shapes, Part (union members) member := by
  match shapes with
  | [] => exact part.of_union
  | [only] => exact Or.inr ⟨only, List.mem_cons_self, part⟩
  | _ :: _ :: _ => exact part.of_union

theorem prop_of_object {name : String} {props : List (String × Shape ω)} {lenient : Bool}
    (part : Part (union members) (object name props lenient)) : ∃ prop ∈ props, Part (union members) prop.2 := by
  cases part with
  | prop listed inside => exact ⟨_, listed, inside⟩

theorem prop_of_ofParts (part : Part (union members) (ofParts name required optional)) :
    ∃ prop ∈ required ++ optional, Part (union members) prop.2 := by
  cases required with
  | nil => exact part.prop_of_object
  | cons first others => cases optional with
    | nil =>
      rw [List.append_nil]
      exact part.prop_of_object
    | cons =>
      cases part with
      | left strictly =>
        obtain ⟨prop, listed, inside⟩ := strictly.prop_of_object
        exact ⟨prop, List.mem_append_left _ listed, inside⟩
      | right leniently =>
        obtain ⟨prop, listed, inside⟩ := leniently.prop_of_object
        exact ⟨prop, List.mem_append_right _ listed, inside⟩

/-- A union in an object type stands in one of its properties. -/
theorem prop_of_ofProps {attrs : Bool} (part : Part (union members) (ofProps name attrs required optional)) :
    ∃ prop ∈ required ++ optional, Part (union members) prop.2 := by
  cases attrs with
  | false => exact part.prop_of_ofParts
  | true =>
    cases part with
    | inner inside => exact inside.prop_of_ofParts

end Part

end Shape

namespace TypeTree

variable {book : Book ω} {t : TypeTree ω}

/-- The unions in the shape of a type are those of its own unions. -/
theorem WellFormed.trees_of_part (wellFormed : t.WellFormed book) {members : List (Shape ω)}
    (part : Shape.Part (.union members) t.shape) :
    ∃ trees : List (TypeTree ω), trees.map shape = members ∧ ∀ tree ∈ trees, tree.WellFormed book := by
  induction wellFormed with
  | scalar kind => cases part
  | @stock kind _ =>
    cases kind with
    | date => cases part
    | latitude | longitude | nonEmptyString =>
      cases part with
      | base inside => cases inside
  | array _ ih =>
    cases part with
    | element inside => exact ih inside
  | @union trees each ih =>
    rw [shape, shapes_eq_map] at part
    rcases part.of_oneOf with same | ⟨member, listed, inside⟩
    · exact ⟨trees, same.symm, each⟩
    · obtain ⟨tree, inTrees, rfl⟩ := List.mem_map.mp listed
      exact ih tree inTrees inside
  | record _ _ _ ih =>
    obtain ⟨prop, listed, inside⟩ := part.prop_of_ofProps
    rcases List.mem_append.mp listed with required | optional
    · obtain ⟨p, member, _, rfl⟩ := mem_propShapes.mp required
      exact ih p member inside
    · obtain ⟨p, member, _, rfl⟩ := mem_propShapes.mp optional
      exact ih p member inside
  | ofClass _ _ ih =>
    cases part with
    | structural inside => exact ih inside

/-- A type that an accepted input does not conform to does not claim what the input was decoded to. -/
theorem WellFormed.not_is_of_not_conforms {s : TypeTree ω} (apart : KeepsInstantsApart book)
    (wellFormed : t.WellFormed book) (other : s.WellFormed book) {input : Json} (distinct : input.Distinct)
    {here : Position} {d : Decoded ω} (accepted : t.shape.validate input here = .ok d)
    (differs : s.conforms input = false) : s.shape.is d = false := by
  rw [Bool.eq_false_iff]
  intro belongs
  have certifies := (wellFormed.survives (hereditary_faithful apart) distinct accepted).decoded.certifies
  rw [certifies s other belongs] at differs
  cases differs

end TypeTree

/-- A union encodes with the member that decoded: the first member that accepts an input is the first that
the decoded value belongs to. -/
theorem union_encodes_as_decoded {r : Registry ω} {events : List (Event ω)} (reached : r.Reached events)
    (plain : ∀ event ∈ events, event.Plain) (made : MakesNoInstants events) {target : Target} {s : Shape ω}
    (resolved : r.resolveTarget target = .ok s) {members : List (Shape ω)} (part : Shape.Part (.union members) s)
    {input : Json} (distinct : input.Distinct) {here : Position} {d : Decoded ω}
    (accepted : (Shape.union members).validate input here = .ok d) :
    ∃ before member after, members = before ++ member :: after ∧
      (∀ earlier ∈ before, (∃ found, earlier.validate input here = .error (.invalid found)) ∧ earlier.is d = false) ∧
      member.validate input here = .ok d ∧ member.is d = true ∧
      (Shape.union members).encode d = member.encode d := by
  have described := reached.described plain
  obtain ⟨tree, expanded, rfl⟩ := Target.expand_of_elaborate described.explained target s resolved
  have wellFormed := target.wellFormed_of_expand described.wellFormed tree expanded
  obtain ⟨trees, rfl, each⟩ := wellFormed.trees_of_part part
  have apart : TypeTree.KeepsInstantsApart (bookOf events) := by
    intro name className inner construct listed raw product constructed
    obtain ⟨c, member, rfl⟩ := bookOf_ofClass listed
    exact Or.inl (made c member raw product constructed)
  have ofTree : ∀ s ∈ trees.map TypeTree.shape, ∃ t : TypeTree ω, t.WellFormed (bookOf events) ∧ t.shape = s := by
    intro s listed
    obtain ⟨t, inTrees, rfl⟩ := List.mem_map.mp listed
    exact ⟨t, each t inTrees, rfl⟩
  obtain ⟨before, member, after, split, rejected, validated⟩ := Shape.validate_union_eq_ok_iff.mp accepted
  rw [split] at ofTree
  obtain ⟨t, wellFormedMember, rfl⟩ := ofTree member (List.mem_append_right _ List.mem_cons_self)
  have belongs := (wellFormedMember.belongs distinct validated).decoded
  have notEarlier : ∀ earlier ∈ before, earlier.is d = false := by
    intro earlier inBefore
    obtain ⟨other, wellFormedOther, rfl⟩ := ofTree earlier (List.mem_append_left _ inBefore)
    obtain ⟨found, invalid⟩ := rejected _ inBefore
    exact wellFormedMember.not_is_of_not_conforms apart wellFormedOther distinct validated
      (wellFormedOther.not_conforms_of_invalid invalid)
  refine ⟨before, t.shape, after, split, fun earlier inBefore => ?_, validated, belongs, ?_⟩
  · exact ⟨rejected earlier inBefore, notEarlier earlier inBefore⟩
  · rw [split, Shape.encode, Shape.encodeByFirst_append notEarlier belongs, Option.getD_some]

section Visit

/-- A visit by a guest who is known by a time, by a text or as an account. -/
def visitSchema : Schema :=
  ⟨"Visit", [⟨"guest", .union [.reference "Date", .scalar .string, .reference "Account"], false⟩,
    ⟨"note", .scalar .string, true⟩]⟩

def visitEvents : List (Event Json) :=
  [.registered (.schema visitSchema), .registered (.ofClass account), .registered (.shape "Date" Builtin.date)]

def visitRegistry : Registry Json :=
  (((Registry.empty.register (.shape "Date" Builtin.date)).1.register (.ofClass account)).1.register
    (.schema visitSchema)).1

def guestShapes : List (Shape Json) :=
  let holder : Shape Json := .ofParts (some "Holder") [("name", .string)] [("age", .union [.number, .null])]
  [Builtin.date, .string, .ofClass "Account" holder false account.construct]

def visitShape : Shape Json := .ofParts (some "Visit") [("guest", .union guestShapes)] [("note", .string)]

def guestInput : Json := .obj [("name", .str "x"), ("age", .null)]

def guestDecoded : Decoded Json := .constructed "Account" guestInput (.made guestInput)

theorem visitEvents_plain : ∀ event ∈ visitEvents, event.Plain := by
  intro event member
  simp only [visitEvents, List.mem_cons, List.not_mem_nil, or_false] at member
  rcases member with rfl | rfl | rfl
  · exact ⟨by decide, ⟨trivial, trivial, trivial, trivial⟩, trivial, trivial⟩
  · exact ⟨by decide, trivial, ⟨trivial, trivial, trivial⟩, trivial⟩
  · exact ⟨.date, rfl, rfl⟩

theorem visitEvents_makeNoInstants : MakesNoInstants visitEvents := by
  intro c member raw product constructed
  simp only [visitEvents, List.mem_cons, Event.registered.injEq, reduceCtorEq, Definition.ofClass.injEq,
    List.not_mem_nil, or_false, false_or] at member
  subst member
  cases constructed
  exact ⟨raw, rfl⟩

theorem guestInput_distinct : guestInput.Distinct := ⟨by decide, trivial, trivial, trivial⟩

theorem union_encodes_as_decoded_visit : ∃ before member after, guestShapes = before ++ member :: after ∧
    (∀ earlier ∈ before, (∃ found, earlier.validate guestInput (.top "Visit") = .error (.invalid found)) ∧
      earlier.is guestDecoded = false) ∧
    member.validate guestInput (.top "Visit") = .ok guestDecoded ∧ member.is guestDecoded = true ∧
    (Shape.union guestShapes).encode guestDecoded = member.encode guestDecoded :=
  union_encodes_as_decoded (.register (.register (.register .empty rfl) rfl) rfl) visitEvents_plain
    visitEvents_makeNoInstants (show visitRegistry.resolveTarget (.named "Visit") = .ok visitShape from rfl)
    (.left (.prop List.mem_cons_self .whole)) guestInput_distinct rfl

end Visit

end Conform
