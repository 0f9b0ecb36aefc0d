import Conform.Proofs.Pairing
import Conform.Proofs.Shape.Structural
import Conform.Proofs.Shape.Traversal

namespace Conform.Shape

open Mismatch (Beside Echo)

variable {ω : Type}

/-- Two results, each with what is said on the way to it: the same value, the same fatal error, or two rejections
with what is found in step. -/
inductive Parallel {α : Type} : Except Failure α → List Mismatch → Except Failure α → List Mismatch → Prop
  | accepted (d : α) : Parallel (.ok d) [] (.ok d) []
  | rejected {found said found' said' : List Mismatch} (echo : Echo found said found' said') :
      Parallel (.error (.invalid found)) said (.error (.invalid found')) said'
  | fatal (e : DecodeError) {said said' : List Mismatch} (beside : List.Forall₂ Beside said said') :
      Parallel (.error (.fatal e)) said (.error (.fatal e)) said'

theorem Parallel.beside {α : Type} {result other : Except Failure α} {said said' : List Mismatch}
    (parallel : Parallel result said other said') : List.Forall₂ Beside said said' := by
  cases parallel with
  | accepted => exact .nil
  | rejected echo => exact echo.beside
  | fatal _ beside => exact beside

theorem Parallel.map {α β : Type} {result other : Except Failure α} {said said' : List Mismatch}
    (parallel : Parallel result said other said') (f : α → β) : Parallel (result.map f) said (other.map f) said' := by
  cases parallel with
  | accepted d => exact .accepted (f d)
  | rejected echo => exact .rejected echo
  | fatal e beside => exact .fatal e beside

theorem Tells.parallel {α : Type} {result : Except Failure α} {said : List Mismatch} (tells : Tells result said) :
    Parallel result said result said := by
  cases tells with
  | accepted d => exact .accepted d
  | rejected covers => exact .rejected (.refl covers)
  | fatal e => exact .fatal e (List.forall₂_same.mpr fun _ _ => ⟨rfl, rfl⟩)

/-- Two shapes that take, write and know the same values, and that speak of the same places when they reject. The names
of types that they give may differ. -/
structure Alike (a b : Shape ω) : Prop where
  encode : ∀ d, a.encode d = b.encode d
  is : ∀ d, a.is d = b.is d
  parallel : ∀ input here,
    Parallel (a.validate input here) (a.remarks input here) (b.validate input here) (b.remarks input here)

theorem Alike.refl (s : Shape ω) : s.Alike s where
  encode _ := rfl
  is _ := rfl
  parallel input here := (s.validate_tells input here).parallel

/-- Declared keys with shapes that are alike. -/
def PropsAlike (props others : List (String × Shape ω)) : Prop :=
  List.Forall₂ (fun p q => p.1 = q.1 ∧ p.2.Alike q.2) props others

section Findings

variable {α β : Type} {part other : Except Failure α} {rest rest' : Except DecodeError (Findings α)}
  {said said' others others' : List Mismatch}

/-- What is gathered on two sides, each with what is said on the way. -/
inductive Findings.Parallel {α : Type} : Except DecodeError (Findings α) → List Mismatch →
    Except DecodeError (Findings α) → List Mismatch → Prop
  | gathered (accepted : List α) {found said found' said' : List Mismatch} (echo : Echo found said found' said') :
      Parallel (.ok ⟨accepted, found⟩) said (.ok ⟨accepted, found'⟩) said'
  | fatal (e : DecodeError) {said said' : List Mismatch} (beside : List.Forall₂ Beside said said') :
      Parallel (.error e) said (.error e) said'

theorem Findings.Parallel.beside (parallel : Findings.Parallel rest said rest' said') : List.Forall₂ Beside said said' := by
  cases parallel with
  | gathered _ echo => exact echo.beside
  | fatal _ beside => exact beside

theorem Findings.parallel_none : Findings.Parallel (.ok (Findings.none : Findings α)) [] (.ok .none) [] :=
  .gathered [] (.whole .nil)

theorem Findings.parallel_cons (first : Shape.Parallel part said other said')
    (later : Findings.Parallel rest others rest' others') :
    Findings.Parallel (cons part rest) (said ++ others) (cons other rest') (said' ++ others') := by
  cases first with
  | accepted d => cases later with
    | gathered accepted echo => exact .gathered (d :: accepted) echo
    | fatal e beside => exact .fatal e beside
  | rejected echo => cases later with
    | gathered accepted echo' => exact .gathered accepted (echo.append echo')
    | fatal e beside => exact .fatal e (List.rel_append echo.beside beside)
  | fatal e beside => exact .fatal e (List.rel_append beside later.beside)

theorem Findings.parallel_finish (parallel : Findings.Parallel rest said rest' said') (build : List α → β) :
    Shape.Parallel (finish build rest) said (finish build rest') said' := by
  cases parallel with
  | @gathered accepted found _ found' _ echo =>
    by_cases none : found = []
    · have unsaid := echo.covers.eq_nil_iff.mp none
      obtain rfl := echo.eq_nil_iff.mp none
      obtain rfl := echo.said_eq_nil_iff.mp unsaid
      subst none unsaid
      exact .accepted (build accepted)
    · have none' : found' ≠ [] := fun none' => none (echo.eq_nil_iff.mpr none')
      simp only [finish, List.isEmpty_eq_false_iff.mpr none, List.isEmpty_eq_false_iff.mpr none']
      exact .rejected echo
  | fatal e beside => exact .fatal e beside

end Findings

section Composite

variable {a b : Shape ω} {input : Json} {here : Position}

/-- An array sees its element only through what alike shapes share. -/
theorem array_alike (alike : a.Alike b) : (array a).Alike (array b) where
  encode d := by
    have same : a.encode = b.encode := funext alike.encode
    cases d with
    | arr items => rw [encode, encode, same]
    | _ => rfl
  is d := by
    have same : a.is = b.is := funext alike.is
    cases d with
    | arr items => rw [is, is, same]
    | _ => rfl
  parallel input here := by
    have items_parallel : ∀ (items : List Json) (place : Nat),
        Findings.Parallel (validateItems a.validate here place items)
          ((items.zipIdx place).flatMap fun entry => a.remarks entry.1 (here.index entry.2))
          (validateItems b.validate here place items)
          ((items.zipIdx place).flatMap fun entry => b.remarks entry.1 (here.index entry.2)) := by
      intro items
      induction items with
      | nil => exact fun _ => Findings.parallel_none
      | cons item rest ih =>
        intro place
        exact Findings.parallel_cons (alike.parallel item (here.index place)) (ih (place + 1))
    cases input with
    | arr items => exact Findings.parallel_finish (items_parallel items 0) _
    | _ => exact .rejected (.single ⟨rfl, rfl⟩)

theorem withAttrs_alike (alike : a.Alike b) : (withAttrs a).Alike (withAttrs b) where
  encode d := by rw [encode, encode, alike.encode]
  is d := by rw [is, is, alike.is]
  parallel input here := by
    rw [validate, validate, remarks, remarks]
    exact (alike.parallel input here).map setAttrs

/-- The name of an intersection shows in no result, so it may differ. -/
theorem intersection_alike {left right left' right' : Shape ω} (first : left.Alike left') (second : right.Alike right')
    (name name' : String) : (intersection name left right).Alike (intersection name' left' right') where
  encode d := by simp only [encode, first.encode, second.encode]
  is d := by simp only [is, first.is, second.is]
  parallel input here := by
    rw [validate, validate, remarks, remarks]
    have onLeft := first.parallel input here
    have onRight := second.parallel input here
    generalize left.validate input here = a, left.remarks input here = said, left'.validate input here = a',
      left'.remarks input here = said' at onLeft
    generalize right.validate input here = b, right.remarks input here = others, right'.validate input here = b',
      right'.remarks input here = others' at onRight
    cases onLeft with
    | accepted d => cases onRight with
      | accepted d' => exact .accepted _
      | rejected echo => exact .rejected echo
      | fatal e beside => exact .fatal e beside
    | rejected echo => cases onRight with
      | accepted d' =>
        rw [List.append_nil, List.append_nil]
        exact .rejected echo
      | rejected echo' => exact .rejected (echo.join echo')
      | fatal e beside => exact .fatal e (List.rel_append echo.beside beside)
    | fatal e beside =>
      have whole := List.rel_append beside onRight.beside
      cases onRight <;> exact .fatal e whole

end Composite

section Union

variable {members others : List (Shape ω)} {input : Json} {here : Position}

theorem Parallel.isOk_eq {α : Type} {result other : Except Failure α} {said said' : List Mismatch}
    (parallel : Parallel result said other said') : result.isOk = other.isOk := by
  cases parallel <;> rfl

theorem someIs_alike (alike : List.Forall₂ Alike members others) (d : Decoded ω) : someIs members d = someIs others d := by
  induction alike with
  | nil => rfl
  | cons first _ ih => rw [someIs, someIs, first.is, ih]

/-- Alike members guard and encode the same, so the same one is chosen. -/
theorem encodeByFirst_alike (alike : List.Forall₂ Alike members others) (d : Decoded ω) :
    encodeByFirst members d = encodeByFirst others d := by
  induction alike with
  | nil => rfl
  | cons first _ ih => rw [encodeByFirst, encodeByFirst, first.is, first.encode, ih]

theorem any_isOk_alike (alike : List.Forall₂ Alike members others) (input : Json) (here : Position) :
    (members.any fun member => (validate member input here).isOk) =
      others.any fun member => (validate member input here).isOk := by
  induction alike with
  | nil => rfl
  | cons first _ ih => rw [List.any_cons, List.any_cons, (first.parallel input here).isOk_eq, ih]

theorem memberRemarks_beside (alike : List.Forall₂ Alike members others) (input : Json) (here : Position) :
    List.Forall₂ Beside (memberRemarks members input here) (memberRemarks others input here) := by
  induction alike with
  | nil => exact .nil
  | cons first _ ih => exact List.rel_append (first.parallel input here).beside ih

/-- After a failure the members go on in step: one of them ends the search alike on both sides, or all are rejected. -/
theorem validateOthers_alike (alike : List.Forall₂ Alike members others) (input : Json) (here : Position)
    {known said known' said' : List Mismatch} (before : Echo known said known' said') :
    (∃ d, validateOthers (.invalid known) members input here = .ok d ∧
      validateOthers (.invalid known') others input here = .ok d) ∨
    (∃ e, validateOthers (.invalid known) members input here = .error (.fatal e) ∧
      validateOthers (.invalid known') others input here = .error (.fatal e)) ∨
    ∃ found found', validateOthers (.invalid known) members input here = .error (.invalid found) ∧
      validateOthers (.invalid known') others input here = .error (.invalid found') ∧
      Echo found (said ++ memberRemarks members input here) found' (said' ++ memberRemarks others input here) := by
  induction alike generalizing known said known' said' with
  | nil =>
    refine Or.inr (Or.inr ⟨known, known', rfl, rfl, ?_⟩)
    rw [memberRemarks, List.append_nil, List.append_nil]
    exact before
  | @cons member other _ _ first _ ih =>
    rw [validateOthers, validateOthers, memberRemarks, memberRemarks, ← List.append_assoc, ← List.append_assoc]
    have step := first.parallel input here
    generalize member.validate input here = result, member.remarks input here = own, other.validate input here = result',
      other.remarks input here = own' at step
    cases step with
    | accepted d => exact Or.inl ⟨d, rfl, rfl⟩
    | rejected echo => exact ih (before.join echo)
    | fatal e => exact Or.inr (Or.inl ⟨e, rfl, rfl⟩)

theorem remarks_eq_nil_of_ok {s : Shape ω} {d : Decoded ω} (accepted : s.validate input here = .ok d) :
    s.remarks input here = [] := by
  have tells := s.validate_tells input here
  rw [accepted] at tells
  generalize s.remarks input here = said at tells ⊢
  cases tells
  rfl

/-- Alike unions remark on the same places, member by member. -/
theorem union_beside (alike : List.Forall₂ Alike members others) (input : Json) (here : Position) :
    List.Forall₂ Beside ((union members).remarks input here) ((union others).remarks input here) := by
  have empty : members.isEmpty = others.isEmpty := by cases alike <;> rfl
  rw [remarks, remarks, empty, any_isOk_alike alike]
  split
  · exact .cons ⟨rfl, rfl⟩ .nil
  · split
    · exact .nil
    · exact memberRemarks_beside alike input here

theorem Parallel.outcome {α : Type} {result other : Except Failure α} {said said' : List Mismatch}
    (parallel : Parallel result said other said') : outcome result = outcome other := by
  cases parallel <;> rfl

theorem Parallel.echo {α : Type} {result other : Except Failure α} {said said' found found' : List Mismatch}
    (parallel : Parallel result said other said') (rejected : result = .error (.invalid found))
    (rejected' : other = .error (.invalid found')) : Echo found said found' said' := by
  subst rejected rejected'
  cases parallel with
  | rejected echo => exact echo

/-- Parallel results are accepted together as one value, fail together for one reason, or are
rejected with reports that echo each other. -/
theorem Parallel.results {α : Type} {result other : Except Failure α} {said said' : List Mismatch}
    (parallel : Parallel result said other said') : (∃ d, result = .ok d ∧ other = .ok d) ∨
      (∃ e, result = .error (.fatal e) ∧ other = .error (.fatal e)) ∨
      ∃ found found', result = .error (.invalid found) ∧ other = .error (.invalid found') ∧
        Echo found said found' said' := by
  cases parallel with
  | accepted d => exact Or.inl ⟨d, rfl, rfl⟩
  | rejected echo => exact Or.inr (Or.inr ⟨_, _, rfl, rfl, echo⟩)
  | fatal e => exact Or.inr (Or.inl ⟨e, rfl, rfl⟩)

/-- A rejected union remarks on all that its members remark on, in their order. -/
theorem remarks_union_of_validateOthers {first : Shape ω} {known found : List Mismatch}
    (rejected : first.validate input here = .error (.invalid known))
    (others : validateOthers (.invalid known) members input here = .error (.invalid found)) :
    (union (first :: members)).remarks input here = first.remarks input here ++ memberRemarks members input here := by
  have each := List.forall_mem_cons.mpr ⟨⟨known, rejected⟩, (validateOthers_eq_invalid others).2⟩
  rw [remarks_union_of_rejected (List.cons_ne_nil first members) each, memberRemarks]

/-- Alike members are tried in the same order and say parallel things. -/
theorem union_parallel (alike : List.Forall₂ Alike members others) (input : Json) (here : Position) :
    Parallel ((union members).validate input here) ((union members).remarks input here)
      ((union others).validate input here) ((union others).remarks input here) := by
  have beside := union_beside alike input here
  have accept {d : Decoded ω} (left : (union members).validate input here = .ok d)
      (right : (union others).validate input here = .ok d) :
      Parallel ((union members).validate input here) ((union members).remarks input here)
        ((union others).validate input here) ((union others).remarks input here) := by
    rw [left, right, remarks_eq_nil_of_ok left, remarks_eq_nil_of_ok right]
    exact .accepted d
  cases alike with
  | nil => exact .rejected (.single ⟨rfl, rfl⟩)
  | cons same later =>
    -- The first members decide together; only where both reject do the others come in.
    rcases (same.parallel input here).results with
      ⟨d, left, right⟩ | ⟨e, left, right⟩ | ⟨known, known', left, right, echo⟩
    · refine accept (d := d) ?_ ?_
      · simp only [validate, validateMembers, left]
      · simp only [validate, validateMembers, right]
    · simp only [validate, validateMembers, left, right]
      exact .fatal e beside
    · rcases validateOthers_alike later input here echo with
        ⟨d, left', right'⟩ | ⟨e, left', right'⟩ | ⟨found, found', left', right', whole⟩
      · refine accept (d := d) ?_ ?_
        · simp only [validate, validateMembers, left, left']
        · simp only [validate, validateMembers, right, right']
      · simp only [validate, validateMembers, left, right, left', right']
        exact .fatal e beside
      · simp only [validate, validateMembers, left, right, left', right', remarks_union_of_validateOthers left left',
          remarks_union_of_validateOthers right right']
        exact .rejected whole

theorem union_alike (alike : List.Forall₂ Alike members others) : (union members).Alike (union others) where
  encode d := by rw [encode, encode, encodeByFirst_alike alike]
  is d := by rw [is, is, someIs_alike alike]
  parallel := union_parallel alike

theorem oneOf_alike (alike : List.Forall₂ Alike members others) : (oneOf members).Alike (oneOf others) := by
  have whole := union_alike alike
  cases alike with
  | nil => exact whole
  | cons first later => cases later with
    | nil => exact first
    | cons => exact whole

end Union

section Object

variable {props others : List (String × Shape ω)}

theorem encodeProp_alike (alike : PropsAlike props others) (key : String) (d : Decoded ω) :
    encodeProp props key d = encodeProp others key d := by
  induction alike with
  | nil => rfl
  | @cons p q _ _ first _ ih =>
    obtain ⟨declared, shape⟩ := p
    obtain ⟨_, other⟩ := q
    obtain ⟨rfl, same⟩ := first
    rw [encodeProp, encodeProp, ih, same.encode]

theorem propsAre_alike (alike : PropsAlike props others) (lenient : Bool) (fields : Fields (Decoded ω)) :
    propsAre lenient props fields = propsAre lenient others fields := by
  induction alike with
  | nil => rfl
  | @cons p q _ _ first _ ih =>
    obtain ⟨declared, shape⟩ := p
    obtain ⟨_, other⟩ := q
    obtain ⟨rfl, same⟩ := first
    have sameIs : shape.is = other.is := funext same.is
    rw [propsAre, propsAre, ih, sameIs]

theorem validateProps_parallel (alike : PropsAlike props others) (lenient : Bool) (fields : Fields Json)
    (here : Position) :
    Findings.Parallel (validateProps lenient props fields here) (propRemarks lenient props fields here)
      (validateProps lenient others fields here) (propRemarks lenient others fields here) := by
  induction alike with
  | nil => exact Findings.parallel_none
  | @cons p q _ _ first _ ih =>
    obtain ⟨key, shape⟩ := p
    obtain ⟨_, other⟩ := q
    obtain ⟨rfl, same⟩ := first
    rw [validateProps, validateProps, propRemarks, propRemarks]
    cases Fields.get? key fields with
    | none => cases lenient with
      | true => exact ih
      | false =>
        simp only [Bool.false_eq_true, if_false]
        exact Findings.parallel_cons (.rejected (.single ⟨rfl, rfl⟩)) ih
    | some value => exact Findings.parallel_cons ((same.parallel value (here.field key)).map _) ih

/-- Objects with alike declarations are alike, whatever their names. -/
theorem object_alike (alike : PropsAlike props others) (name name' : String) (lenient : Bool) :
    (object name props lenient).Alike (object name' others lenient) where
  encode d := by
    cases d with
    | obj fields => simp only [encode, encodeProp_alike alike]
    | _ => rfl
  is d := by
    cases d with
    | obj fields => rw [is, is, propsAre_alike alike]
    | _ => rfl
  parallel input here := by
    cases input with
    | obj fields =>
      rw [validate, validate, remarks, remarks]
      exact Findings.parallel_finish (validateProps_parallel alike lenient fields here) _
    | _ => exact .rejected (.single ⟨rfl, rfl⟩)

end Object

section Record

variable {required required' optional optional' : List (String × Shape ω)}

theorem PropsAlike.refl (props : List (String × Shape ω)) : PropsAlike props props :=
  List.forall₂_same.mpr fun prop _ => ⟨rfl, .refl prop.2⟩

theorem withAttrsIf_alike {a b : Shape ω} (alike : a.Alike b) (attrs : Bool) :
    (if attrs then withAttrs a else a).Alike (if attrs then withAttrs b else b) := by
  cases attrs with
  | false => exact alike
  | true => exact withAttrs_alike alike

theorem name_ofProps (name : String) (attrs : Bool) (required optional : List (String × Shape ω)) :
    (ofProps (some name) attrs required optional).name = name := by
  have parts : (ofParts (some name) required optional).name = name := by
    cases required with
    | nil => rw [ofParts, lenient, Shape.name, Option.getD_some]
    | cons first rest => cases optional with
      | nil => rw [ofParts_strict _ (List.cons_ne_nil first rest), strict, Shape.name, Option.getD_some]
      | cons second others =>
        rw [ofParts_both _ (List.cons_ne_nil first rest) (List.cons_ne_nil second others), both, Shape.name,
          Option.getD_some]
  cases attrs with
  | false => exact parts
  | true => rw [ofProps, if_pos rfl, Shape.name, parts]

/-- The name of an object type shows in nothing but what a mismatch expected. -/
theorem ofProps_alike (first : PropsAlike required required') (second : PropsAlike optional optional')
    (name name' : Option String) (attrs : Bool) :
    (ofProps name attrs required optional).Alike (ofProps name' attrs required' optional') := by
  refine withAttrsIf_alike ?_ attrs
  cases first with
  | nil => exact object_alike second _ _ true
  | cons here later =>
    have strictly (label label' : String) := object_alike (.cons here later) label label' false
    cases second with
    | nil => exact strictly _ _
    | cons here' later' => exact intersection_alike (strictly _ _) (object_alike (.cons here' later') _ _ true) _ _

end Record

section NotObject

variable {input : Json}

/-- An object names itself to an input that is none. -/
theorem validate_object_of_not_obj (notObj : ∀ fields, input ≠ .obj fields) (name : String)
    (props : List (String × Shape ω)) (lenient : Bool) (here : Position) :
    (object name props lenient).validate input here = .error (.single here name (some input)) := by
  cases input with
  | obj fields => exact absurd rfl (notObj fields)
  | _ => rfl

theorem validate_withAttrsIf_of_rejected {s : Shape ω} {here : Position} {f : Failure}
    (rejected : s.validate input here = .error f) (attrs : Bool) :
    (if attrs then withAttrs s else s).validate input here = .error f := by
  cases attrs with
  | false => exact rejected
  | true =>
    rw [if_pos rfl, validate, rejected]
    rfl

/-- An object type with a name speaks of it once where there is no object: both of its sides say the same. -/
theorem validate_ofProps_of_not_obj (notObj : ∀ fields, input ≠ .obj fields) (name : String) (attrs : Bool)
    (required optional : List (String × Shape ω)) (here : Position) :
    (ofProps (some name) attrs required optional).validate input here = .error (.single here name (some input)) := by
  refine validate_withAttrsIf_of_rejected ?_ attrs
  have part (props : List (String × Shape ω)) (lenient : Bool) := validate_object_of_not_obj notObj name props lenient here
  cases required with
  | nil => exact part _ _
  | cons first rest => cases optional with
    | nil => exact part _ _
    | cons second others =>
      have once : (Failure.single here name (some input)).absorb (.single here name (some input)) =
          .single here name (some input) := by
        simp [Failure.single, Failure.absorb, Failure.addNew, Mismatch.same]
      rw [ofParts_both _ (List.cons_ne_nil first rest) (List.cons_ne_nil second others), both, strict, lenient, validate]
      simp only [Option.getD_some, part, once]

/-- Without a name the type is spoken of once too where its keys are all required or all optional. -/
theorem exists_single_of_not_obj (notObj : ∀ fields, input ≠ .obj fields) (attrs : Bool)
    {required optional : List (String × Shape ω)} (oneSided : required = [] ∨ optional = []) (here : Position) :
    ∃ expected, (ofProps none attrs required optional).validate input here =
      .error (.single here expected (some input)) := by
  rcases oneSided with rfl | rfl
  · exact ⟨_, validate_withAttrsIf_of_rejected (validate_object_of_not_obj notObj _ _ _ here) attrs⟩
  · cases required with
    | nil => exact ⟨_, validate_withAttrsIf_of_rejected (validate_object_of_not_obj notObj _ _ _ here) attrs⟩
    | cons => exact ⟨_, validate_withAttrsIf_of_rejected (validate_object_of_not_obj notObj _ _ _ here) attrs⟩

end NotObject

end Conform.Shape
