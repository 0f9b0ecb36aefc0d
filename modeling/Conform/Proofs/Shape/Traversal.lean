import Conform.Proofs.Expansion
import Conform.Proofs.Leaf
import Conform.Proofs.Repeats

namespace Conform

variable {ω : Type}

namespace Shape

mutual

/-- All that is said of an input on the way through its parts, repeats included. The parts are gone
through in their order, and the left side of an intersection before the right one. A part that is
accepted has nothing said of it, so a union is silent where one of its members accepts. -/
def remarks : Shape ω → Json → Position → List Mismatch
  | .scalar kind, input, here => if kind.holds input then [] else [⟨here.path, kind.name, some input⟩]
  | .array element, input, here =>
    match input with
    | .arr items => items.zipIdx.flatMap fun (item, place) => remarks element item (here.index place)
    | _ => [⟨here.path, (array element).name, some input⟩]
  | .union members, input, here =>
    if members.isEmpty then [⟨here.path, (union members).name, some input⟩]
    else if members.any fun member => (validate member input here).isOk then []
    else memberRemarks members input here
  | .object name props lenient, input, here =>
    match input with
    | .obj fields => propRemarks lenient props fields here
    | _ => [⟨here.path, name, some input⟩]
  | .intersection _ left right, input, here => remarks left input here ++ remarks right input here
  | .refine name base accepts, input, here =>
    match validate base input here with
    | .ok d => if accepts d then [] else [⟨here.path, name, some input⟩]
    | .error _ => remarks base input here
  | .withAttrs inner, input, here => remarks inner input here
  | .ofClass _ inner _ _, input, here => remarks inner input here
  | .custom _ validate _ _, input, here =>
    match validate input here with
    | .error (.invalid found) => found
    | _ => []

/-- What the members of a union say, each of the whole input. -/
def memberRemarks : List (Shape ω) → Json → Position → List Mismatch
  | [], _, _ => []
  | member :: rest, input, here => remarks member input here ++ memberRemarks rest input here

/-- What is said of the declared keys of an object, in the order of their declaration. -/
def propRemarks (lenient : Bool) : List (String × Shape ω) → List (String × Json) → Position → List Mismatch
  | [], _, _ => []
  | (key, shape) :: rest, fields, here =>
    (match Fields.get? key fields with
      | some value => remarks shape value (here.field key)
      | none => if lenient then [] else [⟨(here.field key).path, shape.name, none⟩]) ++
      propRemarks lenient rest fields here

end

theorem not_isOk_of_invalid {s : Shape ω} {input : Json} {here : Position} {found : List Mismatch}
    (rejected : s.validate input here = .error (.invalid found)) : (s.validate input here).isOk = false := by
  rw [rejected]
  rfl

/-- A union goes on to the next member only where the ones before it were rejected, so it is rejected where all
members are, and all of them are heard. -/
theorem remarks_union_of_rejected {members : List (Shape ω)} {input : Json} {here : Position} (some : members ≠ [])
    (rejected : ∀ member ∈ members, ∃ found, member.validate input here = .error (.invalid found)) :
    (union members).remarks input here = memberRemarks members input here := by
  have nonempty : members.isEmpty = false := List.isEmpty_eq_false_iff.mpr some
  have none : ¬(members.any fun member => (member.validate input here).isOk) = true := by
    rw [Bool.not_eq_true, List.any_eq_false]
    intro member listed
    obtain ⟨found, refused⟩ := rejected member listed
    rw [not_isOk_of_invalid refused]
    exact Bool.false_ne_true
  rw [remarks, nonempty, if_neg Bool.false_ne_true, if_neg none]

/-- Of an object the required keys are spoken of first, whichever way they are declared. -/
theorem remarks_ofProps (name : Option String) (attrs : Bool) (required optional : List (String × Shape ω))
    (fields : Fields Json) (here : Position) : (ofProps name attrs required optional).remarks (.obj fields) here =
      propRemarks false required fields here ++ propRemarks true optional fields here := by
  have parts : (ofParts name required optional).remarks (.obj fields) here =
      propRemarks false required fields here ++ propRemarks true optional fields here := by
    cases required with
    | nil => rw [ofParts, lenient, remarks, propRemarks, List.nil_append]
    | cons first rest => cases optional with
      | nil => rw [ofParts_strict name (List.cons_ne_nil first rest), strict, remarks, propRemarks, List.append_nil]
      | cons second others =>
        rw [ofParts_both name (List.cons_ne_nil first rest) (List.cons_ne_nil second others), both, strict, lenient,
          remarks, remarks, remarks]
  cases attrs with
  | false => exact parts
  | true => rw [ofProps, if_pos rfl, remarks, parts]

/-- Induction on a shape, with the claim at hand for every member and every declared key. -/
theorem induction {motive : Shape ω → Prop} (scalar : ∀ kind, motive (.scalar kind))
    (array : ∀ element, motive element → motive (.array element))
    (union : ∀ members, (∀ member ∈ members, motive member) → motive (.union members))
    (object : ∀ name props lenient, (∀ prop ∈ props, motive prop.2) → motive (.object name props lenient))
    (intersection : ∀ name left right, motive left → motive right → motive (.intersection name left right))
    (refine : ∀ name base accepts, motive base → motive (.refine name base accepts))
    (withAttrs : ∀ inner, motive inner → motive (.withAttrs inner))
    (ofClass : ∀ className inner showsAttrs construct, motive inner →
      motive (.ofClass className inner showsAttrs construct))
    (custom : ∀ name validate encode is, motive (.custom name validate encode is)) : ∀ s : Shape ω, motive s := by
  refine @Shape.rec ω motive (fun members => ∀ member ∈ members, motive member)
    (fun props => ∀ prop ∈ props, motive prop.2) (fun prop => motive prop.2)
    scalar array union object intersection refine withAttrs ofClass custom ?_ ?_ ?_ ?_ ?_
  · exact fun _ member => nomatch member
  · exact fun member rest first others => List.forall_mem_cons.mpr ⟨first, others⟩
  · exact fun _ member => nomatch member
  · exact fun prop rest first others => List.forall_mem_cons.mpr ⟨first, others⟩
  · exact fun _ _ claim => claim

/-- A result names what the remarks say: an accepted part has none, and a rejection says all that they
say in their order. Where a part is fatal, what would be said beside it is not asked. -/
inductive Tells {α : Type} : Except Failure α → List Mismatch → Prop
  | accepted (d : α) : Tells (.ok d) []
  | rejected {found remarks : List Mismatch} (covers : Mismatch.Covers found remarks) :
      Tells (.error (.invalid found)) remarks
  | fatal (e : DecodeError) (remarks : List Mismatch) : Tells (.error (.fatal e)) remarks

section Findings

variable {α β : Type} {part : Except Failure α} {rest : Except DecodeError (Findings α)}
  {said others : List Mismatch}

/-- What is gathered names what the remarks say. -/
def Findings.Tell (gathered : Except DecodeError (Findings α)) (remarks : List Mismatch) : Prop :=
  ∀ r, gathered = .ok r → Mismatch.Covers r.mismatches remarks

theorem Findings.tell_cons (first : Tells part said) (later : Tell rest others) :
    Tell (cons part rest) (said ++ others) := by
  intro r gathered
  obtain ⟨behind, done, ⟨d, rfl, rfl⟩ | ⟨found, rfl, rfl⟩⟩ := cons_eq_ok_iff.mp gathered
  · cases first
    exact later behind done
  · cases first with
    | rejected covers => exact covers.append (later behind done)

/-- A whole tells what its parts tell. -/
theorem Findings.tells_finish (tell : Tell rest said) (build : List α → β) : Tells (finish build rest) said := by
  cases rest with
  | error e => exact .fatal e said
  | ok r =>
    have covers := tell r rfl
    rw [finish]
    split
    · rename_i none
      rw [covers.eq_nil_iff.mp (List.isEmpty_iff.mp none)]
      exact .accepted _
    · exact .rejected covers

end Findings

section Tells

variable {input : Json} {here : Position}

theorem array_tells {element : Shape ω} (tells : ∀ input here, Tells (element.validate input here) (element.remarks input here))
    (input : Json) (here : Position) : Tells ((array element).validate input here) ((array element).remarks input here) := by
  have items_tell : ∀ (items : List Json) (place : Nat),
      Findings.Tell (validateItems element.validate here place items)
        ((items.zipIdx place).flatMap fun (item, place) => element.remarks item (here.index place)) := by
    intro items
    induction items with
    | nil =>
      rintro place r ⟨⟩
      exact .refl []
    | cons item rest ih =>
      intro place
      exact Findings.tell_cons (tells item (here.index place)) (ih (place + 1))
  cases input with
  | arr items => exact Findings.tells_finish (items_tell items 0) _
  | _ => exact .rejected (.refl _)

/-- A member that was rejected adds its remarks to those before it. -/
theorem validateOthers_covers {members : List (Shape ω)} {known said found : List Mismatch}
    (tells : ∀ member ∈ members, Tells (member.validate input here) (member.remarks input here))
    (before : Mismatch.Covers known said)
    (rejected : validateOthers (.invalid known) members input here = .error (.invalid found)) :
    Mismatch.Covers found (said ++ memberRemarks members input here) := by
  induction members generalizing known said with
  | nil =>
    cases rejected
    rw [memberRemarks, List.append_nil]
    exact before
  | cons first rest ih =>
    obtain ⟨here', later⟩ := List.forall_mem_cons.mp tells
    rw [validateOthers] at rejected
    rw [memberRemarks, ← List.append_assoc]
    cases result : first.validate input here with
    | ok d => simp [result] at rejected
    | error f => cases f with
      | fatal e => simp [result] at rejected
      | invalid more =>
        rw [result] at here' rejected
        cases here' with
        | rejected covers => exact ih later (before.join covers) rejected

/-- A union tells what all its members tell, unless one accepts. -/
theorem union_tells {members : List (Shape ω)}
    (tells : ∀ member ∈ members, ∀ input here, Tells (member.validate input here) (member.remarks input here))
    (input : Json) (here : Position) : Tells ((union members).validate input here) ((union members).remarks input here) := by
  cases members with
  | nil => exact .rejected (.refl _)
  | cons first rest =>
    cases result : (union (first :: rest)).validate input here with
    | ok d =>
      obtain ⟨before, member, after, split, _, accepted⟩ := validate_union_eq_ok_iff.mp result
      have listed : member ∈ first :: rest := split ▸ List.mem_append_right before List.mem_cons_self
      have some : (first :: rest).isEmpty = false := rfl
      rw [remarks, some, if_neg Bool.false_ne_true,
        if_pos (List.any_eq_true.mpr ⟨member, listed, by rw [accepted]; rfl⟩)]
      exact .accepted d
    | error f => cases f with
      | fatal e => exact .fatal e _
      | invalid found =>
        rcases validate_union_cons first rest input here with ⟨valid, same⟩ | ⟨known, rejected, same⟩
        · rw [result] at same
          obtain ⟨more, rejected⟩ := (validateOthers_eq_invalid same.symm).2 first List.mem_cons_self
          exact absurd rejected (valid more)
        · rw [result] at same
          have others := (validateOthers_eq_invalid same.symm).2
          obtain ⟨own, later⟩ := List.forall_mem_cons.mp tells
          have here' := own input here
          rw [rejected] at here'
          rw [remarks_union_of_rejected (List.cons_ne_nil first rest)
            (List.forall_mem_cons.mpr ⟨⟨known, rejected⟩, others⟩), memberRemarks]
          cases here' with
          | rejected covers =>
            exact .rejected (validateOthers_covers (fun member listed => later member listed input here) covers same.symm)

/-- An object tells which keys are missing and what its parts tell, in the order of the
declarations. -/
theorem object_tells {name : String} {props : List (String × Shape ω)} {lenient : Bool}
    (tells : ∀ prop ∈ props, ∀ input here, Tells (prop.2.validate input here) (prop.2.remarks input here))
    (input : Json) (here : Position) :
    Tells ((object name props lenient).validate input here) ((object name props lenient).remarks input here) := by
  have props_tell : ∀ fields : Fields Json,
      Findings.Tell (validateProps lenient props fields here) (propRemarks lenient props fields here) := by
    intro fields
    induction props with
    | nil =>
      rintro r ⟨⟩
      exact .refl []
    | cons prop rest ih =>
      obtain ⟨key, shape⟩ := prop
      obtain ⟨first, others⟩ := List.forall_mem_cons.mp tells
      have later := ih others
      cases present : Fields.get? key fields with
      | none => cases lenient with
        | true => simpa only [validateProps, propRemarks, present, if_true, List.nil_append] using later
        | false =>
          simp only [validateProps, propRemarks, present, Bool.false_eq_true, if_false]
          exact Findings.tell_cons (.rejected (.refl _)) later
      | some value =>
        simp only [validateProps, propRemarks, present]
        refine Findings.tell_cons ?_ later
        have part := first value (here.field key)
        generalize shape.validate value (here.field key) = result, shape.remarks value (here.field key) = said at part
        cases part with
        | accepted d => exact .accepted (key, d)
        | rejected covers => exact .rejected covers
        | fatal e => exact .fatal e said
  cases input with
  | obj fields =>
    rw [validate, remarks]
    exact Findings.tells_finish (props_tell fields) _
  | _ => exact .rejected (.refl _)

theorem intersection_tells {name : String} {left right : Shape ω}
    (first : Tells (left.validate input here) (left.remarks input here))
    (second : Tells (right.validate input here) (right.remarks input here)) :
    Tells ((intersection name left right).validate input here) ((intersection name left right).remarks input here) := by
  rw [remarks, validate]
  generalize left.validate input here = a, left.remarks input here = onLeft at first
  generalize right.validate input here = b, right.remarks input here = onRight at second
  cases first with
  | accepted d => cases second with
    | accepted d' => exact .accepted _
    | rejected covers => exact .rejected covers
    | fatal e => exact .fatal e _
  | rejected covers => cases second with
    | accepted d' =>
      rw [List.append_nil]
      exact .rejected covers
    | rejected covers' => exact .rejected (covers.join covers')
    | fatal e => exact .fatal e _
  | fatal e => cases second <;> exact .fatal e _

theorem refine_tells {name : String} {base : Shape ω} {accepts : Decoded ω → Bool}
    (tells : Tells (base.validate input here) (base.remarks input here)) :
    Tells ((refine name base accepts).validate input here) ((refine name base accepts).remarks input here) := by
  rw [remarks, validate]
  generalize base.validate input here = result, base.remarks input here = said at tells
  cases tells with
  | accepted d =>
    simp only
    split
    · exact .accepted d
    · exact .rejected (.refl _)
  | rejected covers => exact .rejected covers
  | fatal e => exact .fatal e _

theorem withAttrs_tells {inner : Shape ω} (tells : Tells (inner.validate input here) (inner.remarks input here)) :
    Tells ((withAttrs inner).validate input here) ((withAttrs inner).remarks input here) := by
  rw [remarks, validate]
  generalize inner.validate input here = result, inner.remarks input here = said at tells
  cases tells with
  | accepted d => exact .accepted _
  | rejected covers => exact .rejected covers
  | fatal e => exact .fatal e _

theorem ofClass_tells {className : String} {inner : Shape ω} {showsAttrs : Bool}
    {construct : Json → Except String (Product ω)}
    (tells : Tells (inner.validate input here) (inner.remarks input here)) :
    Tells ((ofClass className inner showsAttrs construct).validate input here)
      ((ofClass className inner showsAttrs construct).remarks input here) := by
  rw [remarks, validate]
  generalize inner.validate input here = result, inner.remarks input here = said at tells
  cases tells with
  | accepted d =>
    simp only [constructFrom]
    split
    · exact .accepted _
    · exact .fatal _ _
  | rejected covers => exact .rejected covers
  | fatal e => exact .fatal e _

/-- Every validation names what its remarks say. -/
theorem validate_tells (s : Shape ω) (input : Json) (here : Position) :
    Tells (s.validate input here) (s.remarks input here) := by
  induction s using Shape.induction generalizing input here with
  | scalar kind =>
    cases kind <;> cases input <;> first | exact .accepted _ | exact .rejected (.refl _)
  | array element ih => exact array_tells ih input here
  | union members ih => exact union_tells ih input here
  | object name props lenient ih => exact object_tells ih input here
  | intersection name left right first second => exact intersection_tells (first input here) (second input here)
  | refine name base accepts ih => exact refine_tells (ih input here)
  | withAttrs inner ih => exact withAttrs_tells (ih input here)
  | ofClass className inner showsAttrs construct ih => exact ofClass_tells (ih input here)
  | custom name check encode is =>
    rw [remarks, validate]
    cases check input here with
    | ok d => exact .accepted d
    | error f => cases f with
      | invalid found => exact .rejected (.refl found)
      | fatal e => exact .fatal e _

end Tells

/-- A rejection says all that the remarks say of the input, in their order and without some of the repeats: the
same mismatches in the same order of their first occurrence. What the remarks of a schema say of an object is
what they say of its required properties and then of its optional ones. -/
theorem rejection_says_all {s : Shape ω} {input : Json} {here : Position} {found : List Mismatch}
    (rejected : s.validate input here = .error (.invalid found)) :
    found.Sublist (s.remarks input here) ∧ Mismatch.firsts found = Mismatch.firsts (s.remarks input here) ∧
      ∀ (scope : Scope ω) (schema : Schema) (fields : Fields Json),
        schema.elaborate scope = .ok s → input = .obj fields →
        ∃ required optional, TypeExpr.elaborateProps scope schema.name false schema.props = .ok required ∧
          TypeExpr.elaborateProps scope schema.name true schema.props = .ok optional ∧
          s.remarks input here = propRemarks false required fields here ++ propRemarks true optional fields here := by
  have tells := s.validate_tells input here
  rw [rejected] at tells
  cases tells with
  | rejected covers =>
    refine ⟨covers.part, covers.firsts_eq, fun scope schema fields elaborated isObject => ?_⟩
    obtain ⟨required, optional, first, second, rfl⟩ := assemble_elaborateProps elaborated
    subst isObject
    exact ⟨required, optional, first, second, remarks_ofProps _ _ _ _ _ _⟩

section Trip

def placeType : TypeExpr := .literal [⟨"name", .scalar .string, false⟩]

def visitType : TypeExpr := .literal [⟨"name", .scalar .string, false⟩, ⟨"open", .scalar .boolean, false⟩]

def tripSchema : Schema :=
  ⟨"Trip", [⟨"note", .scalar .string, true⟩, ⟨"stops", .array (.union [placeType, visitType]), false⟩]⟩

def stopsShape : Shape Empty :=
  .array (.union [.object "\x7b name: string \x7d" [("name", .string)] false,
    .object "\x7b name: string, open: boolean \x7d" [("name", .string), ("open", .boolean)] false])

def tripShape : Shape Empty :=
  .intersection "Trip" (.object "Trip" [("stops", stopsShape)] false) (.object "Trip" [("note", .string)] true)

def namelessStop : Json := .obj [("name", .num (.int 1))]

def tripFields : Fields Json := [("note", .num (.int 2)), ("stops", .arr [.num (.int 7), namelessStop])]

def tripRemarks : List Mismatch :=
  [⟨"Trip.stops.0", "\x7b name: string \x7d", some (.num (.int 7))⟩,
    ⟨"Trip.stops.0", "\x7b name: string, open: boolean \x7d", some (.num (.int 7))⟩,
    ⟨"Trip.stops.1.name", "string", some (.num (.int 1))⟩, ⟨"Trip.stops.1.name", "string", some (.num (.int 1))⟩,
    ⟨"Trip.stops.1.open", "boolean", none⟩, ⟨"Trip.note", "string", some (.num (.int 2))⟩]

/-- Both members of the union miss the same name, which is said once; the note is declared first and spoken of
last. -/
theorem rejection_says_all_trip :
    tripSchema.elaborate Registry.empty.scope = .ok tripShape ∧
    tripShape.validate (.obj tripFields) (.top "Trip") = .error (.invalid (tripRemarks.eraseIdx 3)) ∧
    tripShape.remarks (.obj tripFields) (.top "Trip") = tripRemarks ∧
    Mismatch.firsts (tripRemarks.eraseIdx 3) = Mismatch.firsts tripRemarks ∧
    tripRemarks = propRemarks false [("stops", stopsShape)] tripFields (.top "Trip") ++
      propRemarks true [("note", (.string : Shape Empty))] tripFields (.top "Trip") := by
  have elaborated : tripSchema.elaborate Registry.empty.scope = .ok tripShape := rfl
  have rejected : tripShape.validate (.obj tripFields) (.top "Trip") = .error (.invalid (tripRemarks.eraseIdx 3)) := rfl
  obtain ⟨_, same, schematic⟩ := rejection_says_all rejected
  obtain ⟨required, optional, first, second, parts⟩ := schematic _ _ _ elaborated rfl
  cases first
  cases second
  exact ⟨elaborated, rejected, rfl, same, parts⟩

end Trip

end Shape

end Conform
