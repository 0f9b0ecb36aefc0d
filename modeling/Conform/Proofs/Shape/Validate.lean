import Mathlib.Data.List.Forall2
import Conform.Proofs.Findings

namespace Conform.Shape

variable {ω : Type}

/-- Every rejection of the shape names at least one mismatch. -/
def Reporting (s : Shape ω) : Prop := ∀ input here, Reports (s.validate input here)

theorem reports_single (here : Position) (expected : String) (actual : Option Json) :
    Reports (.error (.single here expected actual) : Validation ω) := by
  intro found equal
  cases equal
  exact List.cons_ne_nil _ _

section Items

theorem validateItems_eq_collect (check : Json → Position → Validation ω) (here : Position) (place : Nat)
    (items : List Json) : validateItems check here place items =
      Findings.collect ((items.zipIdx place).map fun entry => check entry.1 (here.index entry.2)) := by
  induction items generalizing place with
  | nil => rfl
  | cons item rest ih =>
    rw [validateItems, ih, List.zipIdx_cons, List.map_cons, Findings.collect_cons]

theorem reports_items {element : Shape ω} (reporting : element.Reporting) (here : Position) (place : Nat)
    (items : List Json) :
    ∀ result ∈ (items.zipIdx place).map fun entry => element.validate entry.1 (here.index entry.2), Reports result := by
  intro result member
  obtain ⟨entry, _, rfl⟩ := List.mem_map.mp member
  exact reporting _ _

theorem forall₂_imp_of_mem {α β : Type} {R S : α → β → Prop} {items : List α} {parts : List β}
    (each : List.Forall₂ R items parts) (imp : ∀ item ∈ items, ∀ part ∈ parts, R item part → S item part) :
    List.Forall₂ S items parts := by
  induction each with
  | nil => exact .nil
  | cons first _ ih =>
    refine .cons (imp _ List.mem_cons_self _ List.mem_cons_self first) (ih fun item left part right => ?_)
    exact imp item (List.mem_cons_of_mem _ left) part (List.mem_cons_of_mem _ right)

theorem forall_right_of_forall₂ {α β : Type} {R : α → β → Prop} {P : β → Prop} {items : List α} {parts : List β}
    (each : List.Forall₂ R items parts) (imp : ∀ item ∈ items, ∀ part, R item part → P part) :
    ∀ part ∈ parts, P part := by
  induction each with
  | nil => exact fun _ member => nomatch member
  | cons first _ ih =>
    exact List.forall_mem_cons.mpr ⟨imp _ List.mem_cons_self _ first,
      ih fun item member => imp item (List.mem_cons_of_mem _ member)⟩

theorem validate_array_eq_ok {element : Shape ω} (reporting : element.Reporting) {items : List Json}
    {here : Position} {d : Decoded ω} (accepted : (array element).validate (.arr items) here = .ok d) :
    ∃ parts, d = .arr parts ∧
      List.Forall₂ (fun item part => ∃ place, element.validate item place = .ok part) items parts := by
  rw [validate, validateItems_eq_collect] at accepted
  obtain ⟨parts, results, rfl⟩ :=
    (Findings.finish_collect_eq_ok_iff (reports_items reporting here 0 items)).mp accepted
  refine ⟨parts, rfl, ?_⟩
  rw [← List.forall₂_eq_eq_eq, List.forall₂_map_left_iff, List.forall₂_map_right_iff] at results
  have items' : items = (items.zipIdx 0).map Prod.fst := (List.zipIdx_map_fst ..).symm
  rw [items', List.forall₂_map_left_iff]
  exact results.imp fun entry part accepted => ⟨_, accepted⟩

/-- An array rejects a list only for an item that is rejected. -/
theorem validate_array_eq_invalid {element : Shape ω} {items : List Json} {here : Position}
    {found : List Mismatch} (rejected : (array element).validate (.arr items) here = .error (.invalid found)) :
    ∃ item ∈ items, ∃ place more, element.validate item place = .error (.invalid more) := by
  rw [validate, validateItems_eq_collect] at rejected
  obtain ⟨_, more, member⟩ := Findings.exists_invalid_of_finish rejected
  obtain ⟨⟨item, i⟩, inItems, result⟩ := List.mem_map.mp member
  exact ⟨item, List.fst_mem_of_mem_zipIdx inItems, _, more, result⟩

/-- An array reports whatever its element does: it builds its value only when nothing was found. -/
theorem array_reporting (element : Shape ω) : (array element).Reporting := by
  intro input here found rejected
  cases input with
  | arr items =>
    rw [validate, validateItems_eq_collect] at rejected
    exact (Findings.exists_invalid_of_finish rejected).1
  | _ => exact reports_single here _ _ found rejected

theorem validate_array_eq_fatal {element : Shape ω} {items : List Json} {here : Position} {e : DecodeError}
    (failed : (array element).validate (.arr items) here = .error (.fatal e)) :
    ∃ item ∈ items, ∃ place, element.validate item place = .error (.fatal e) := by
  rw [validate, validateItems_eq_collect] at failed
  obtain ⟨⟨item, i⟩, inItems, result⟩ := List.mem_map.mp (Findings.mem_of_finish_eq_fatal failed)
  exact ⟨item, List.fst_mem_of_mem_zipIdx inItems, _, result⟩

end Items

section Members

theorem foldl_addNew_ne_nil {known : List Mismatch} (nonempty : known ≠ []) (more : List Mismatch) :
    more.foldl Failure.addNew known ≠ [] := by
  induction more generalizing known with
  | nil => exact nonempty
  | cons m rest ih =>
    apply ih
    unfold Failure.addNew
    split
    · exact nonempty
    · exact List.append_ne_nil_of_right_ne_nil _ (List.cons_ne_nil _ _)

/-- The member that decides: it accepts, and every member before it is rejected. -/
def FirstAccepts (members : List (Shape ω)) (input : Json) (here : Position) (d : Decoded ω) : Prop :=
  ∃ before member after, members = before ++ member :: after ∧
    (∀ earlier ∈ before, ∃ found, earlier.validate input here = .error (.invalid found)) ∧
    member.validate input here = .ok d

/-- The first member accepts, or it rejects and a later one is the first to accept. -/
theorem firstAccepts_cons {first : Shape ω} {rest : List (Shape ω)} {input : Json} {here : Position} {d : Decoded ω} :
    FirstAccepts (first :: rest) input here d ↔ first.validate input here = .ok d ∨
      (∃ found, first.validate input here = .error (.invalid found)) ∧ FirstAccepts rest input here d := by
  constructor
  · rintro ⟨before, member, after, split, rejected, accepted⟩
    cases before with
    | nil =>
      cases split
      exact Or.inl accepted
    | cons earlier others =>
      cases split
      obtain ⟨invalid, rest⟩ := List.forall_mem_cons.mp rejected
      exact Or.inr ⟨invalid, others, member, after, rfl, rest, accepted⟩
  · rintro (accepted | ⟨invalid, before, member, after, rfl, rejected, accepted⟩)
    · exact ⟨[], first, rest, rfl, by simp, accepted⟩
    · exact ⟨first :: before, member, after, rfl, List.forall_mem_cons.mpr ⟨invalid, rejected⟩, accepted⟩

/-- What has been said before does not decide which member accepts. -/
theorem validateOthers_eq_ok_iff {members : List (Shape ω)} {input : Json} {here : Position}
    {known : List Mismatch} {d : Decoded ω} :
    validateOthers (.invalid known) members input here = .ok d ↔ FirstAccepts members input here d := by
  induction members generalizing known with
  | nil => simp [validateOthers, FirstAccepts]
  | cons first rest ih =>
    rw [firstAccepts_cons]
    cases result : first.validate input here with
    | ok d' => simp [validateOthers, result]
    | error f => cases f with
      | fatal e => simp [validateOthers, result]
      | invalid found => simp [validateOthers, result, Failure.absorb, ih]

/-- Members that are tried in vain have all rejected, and what was said before is kept. -/
theorem validateOthers_eq_invalid {members : List (Shape ω)} {input : Json} {here : Position}
    {known found : List Mismatch}
    (rejected : validateOthers (.invalid known) members input here = .error (.invalid found)) :
    (known ≠ [] → found ≠ []) ∧
      ∀ member ∈ members, ∃ more, member.validate input here = .error (.invalid more) := by
  induction members generalizing known with
  | nil =>
    simp only [validateOthers, Except.error.injEq, Failure.invalid.injEq] at rejected
    exact ⟨fun nonempty => rejected ▸ nonempty, by simp⟩
  | cons first rest ih =>
    cases result : first.validate input here with
    | ok d => simp [validateOthers, result] at rejected
    | error f => cases f with
      | fatal e => simp [validateOthers, result] at rejected
      | invalid more =>
        simp only [validateOthers, result, Failure.absorb] at rejected
        obtain ⟨kept, others⟩ := ih rejected
        exact ⟨fun nonempty => kept (foldl_addNew_ne_nil nonempty more),
          List.forall_mem_cons.mpr ⟨⟨more, result⟩, others⟩⟩

theorem validateOthers_eq_fatal {members : List (Shape ω)} {input : Json} {here : Position}
    {known : List Mismatch} {e : DecodeError}
    (failed : validateOthers (.invalid known) members input here = .error (.fatal e)) :
    ∃ member ∈ members, member.validate input here = .error (.fatal e) := by
  induction members generalizing known with
  | nil => simp [validateOthers] at failed
  | cons first rest ih =>
    cases result : first.validate input here with
    | ok d => simp [validateOthers, result] at failed
    | error f => cases f with
      | fatal e' =>
        simp only [validateOthers, result, Except.error.injEq, Failure.fatal.injEq] at failed
        exact ⟨first, List.mem_cons_self, failed ▸ result⟩
      | invalid more =>
        simp only [validateOthers, result, Failure.absorb] at failed
        obtain ⟨member, inRest, fatal⟩ := ih failed
        exact ⟨member, List.mem_cons_of_mem _ inRest, fatal⟩

/-- The search of a union goes on with the other members exactly where the first one is rejected. -/
theorem validate_union_cons (first : Shape ω) (rest : List (Shape ω)) (input : Json) (here : Position) :
    (∀ found, first.validate input here ≠ .error (.invalid found)) ∧
        (union (first :: rest)).validate input here = validateOthers (.invalid []) (first :: rest) input here ∨
      ∃ found, first.validate input here = .error (.invalid found) ∧
        (union (first :: rest)).validate input here = validateOthers (.invalid found) rest input here := by
  cases result : first.validate input here with
  | ok d => exact Or.inl ⟨by simp, by simp [validate, validateMembers, validateOthers, result]⟩
  | error f => cases f with
    | fatal e => exact Or.inl ⟨by simp, by simp [validate, validateMembers, validateOthers, result]⟩
    | invalid found => exact Or.inr ⟨found, rfl, by simp [validate, validateMembers, result]⟩

/-- A union accepts by its first member that accepts. -/
theorem validate_union_eq_ok_iff {members : List (Shape ω)} {input : Json} {here : Position} {d : Decoded ω} :
    (union members).validate input here = .ok d ↔ FirstAccepts members input here d := by
  cases members with
  | nil => simp [validate, validateMembers, FirstAccepts]
  | cons first rest =>
    rcases validate_union_cons first rest input here with ⟨_, same⟩ | ⟨found, rejected, same⟩
    · rw [same, validateOthers_eq_ok_iff]
    · rw [same, validateOthers_eq_ok_iff, firstAccepts_cons]
      simp [rejected]

/-- A union rejects what every member rejects, and says something. -/
theorem validate_union_eq_invalid {members : List (Shape ω)} (reporting : ∀ m ∈ members, m.Reporting)
    {input : Json} {here : Position} {found : List Mismatch}
    (rejected : (union members).validate input here = .error (.invalid found)) :
    found ≠ [] ∧ ∀ member ∈ members, ∃ more, member.validate input here = .error (.invalid more) := by
  cases members with
  | nil => exact ⟨reports_single here _ _ found rejected, by simp⟩
  | cons first rest =>
    rcases validate_union_cons first rest input here with ⟨valid, same⟩ | ⟨more, invalid, same⟩
    · rw [same] at rejected
      obtain ⟨more, invalid⟩ := (validateOthers_eq_invalid rejected).2 first List.mem_cons_self
      exact absurd invalid (valid more)
    · rw [same] at rejected
      obtain ⟨kept, others⟩ := validateOthers_eq_invalid rejected
      have nonempty := reporting first List.mem_cons_self input here more invalid
      exact ⟨kept nonempty, List.forall_mem_cons.mpr ⟨⟨more, invalid⟩, others⟩⟩

/-- A union reports when its members do, the empty one for itself. -/
theorem union_reporting {members : List (Shape ω)} (each : ∀ m ∈ members, m.Reporting) : (union members).Reporting :=
  fun _ _ _ rejected => (validate_union_eq_invalid each rejected).1

theorem validate_union_eq_fatal {members : List (Shape ω)} {input : Json} {here : Position} {e : DecodeError}
    (failed : (union members).validate input here = .error (.fatal e)) :
    ∃ member ∈ members, member.validate input here = .error (.fatal e) := by
  cases members with
  | nil => simp [validate, validateMembers, Failure.single] at failed
  | cons first rest =>
    rcases validate_union_cons first rest input here with ⟨_, same⟩ | ⟨found, rejected, same⟩
    · exact validateOthers_eq_fatal (same ▸ failed)
    · obtain ⟨member, inRest, fatal⟩ := validateOthers_eq_fatal (same ▸ failed)
      exact ⟨member, List.mem_cons_of_mem _ inRest, fatal⟩

theorem validate_oneOf (members : List (Shape ω)) (input : Json) (here : Position) :
    (oneOf members).validate input here = (union members).validate input here := by
  match members with
  | [] => rfl
  | [member] =>
    cases result : member.validate input here with
    | ok d => simp [oneOf, validate, validateMembers, result]
    | error f => cases f <;> simp [oneOf, validate, validateMembers, validateOthers, result]
  | _ :: _ :: _ => rfl

end Members

section Props

/-- The result for one declared key; a key that may be absent and is has none. -/
def propResult (lenient : Bool) (fields : Fields Json) (here : Position) (prop : String × Shape ω) :
    Option (Except Failure (String × Decoded ω)) :=
  match Fields.get? prop.1 fields with
  | none => if lenient then none else some (.error (.single (here.field prop.1) prop.2.name none))
  | some value => some ((prop.2.validate value (here.field prop.1)).map fun d => (prop.1, d))

theorem validateProps_eq_collect (lenient : Bool) (props : List (String × Shape ω)) (fields : Fields Json)
    (here : Position) : validateProps lenient props fields here =
      Findings.collect (props.filterMap (propResult lenient fields here)) := by
  induction props with
  | nil => rfl
  | cons prop rest ih =>
    obtain ⟨key, shape⟩ := prop
    cases present : Fields.get? key fields with
    | none =>
      cases lenient
      · simp [validateProps, propResult, present, ih, Findings.collect_cons]
      · simp [validateProps, propResult, present, ih]
    | some value => simp [validateProps, propResult, present, ih, Findings.collect_cons]

/-- A declaration has a result where its key is present, or where the key is missing and the object
is strict. -/
theorem propResult_eq_some_iff {lenient : Bool} {fields : Fields Json} {here : Position}
    {prop : String × Shape ω} {result : Except Failure (String × Decoded ω)} :
    propResult lenient fields here prop = some result ↔
      (Fields.get? prop.1 fields = none ∧ lenient = false ∧
        result = .error (.single (here.field prop.1) prop.2.name none)) ∨
      ∃ value, Fields.get? prop.1 fields = some value ∧
        result = (prop.2.validate value (here.field prop.1)).map fun d => (prop.1, d) := by
  unfold propResult
  cases present : Fields.get? prop.1 fields with
  | none => cases lenient <;> simp [eq_comm]
  | some value => simp [eq_comm]

/-- An object is rebuilt key by key: a decoded part where there is one, the input elsewhere. -/
theorem rebuild_eq_mapWithKey (fields : Fields Json) (decoded : Fields (Decoded ω)) :
    rebuild fields decoded =
      fields.mapWithKey fun key value => (Fields.last? key decoded).getD (.ofJson value) := rfl

/-- What a declared key contributes to an accepted object: what its shape makes of the value there. -/
theorem propResult_bind_toOption (lenient : Bool) (fields : Fields Json) (here : Position) (prop : String × Shape ω) :
    (propResult lenient fields here prop).bind Except.toOption =
      ((Fields.get? prop.1 fields).bind fun value => (prop.2.validate value (here.field prop.1)).toOption).map
        (Prod.mk prop.1) := by
  unfold propResult
  cases Fields.get? prop.1 fields with
  | none => cases lenient <;> rfl
  | some value =>
    cases validated : prop.2.validate value (here.field prop.1) <;> simp [validated, Except.map, Except.toOption]

theorem reports_propResult {lenient : Bool} {fields : Fields Json} {here : Position}
    {props : List (String × Shape ω)} (reporting : ∀ prop ∈ props, prop.2.Reporting) :
    ∀ result ∈ props.filterMap (propResult lenient fields here), Reports result := by
  intro result member found invalid
  obtain ⟨prop, inProps, equal⟩ := List.mem_filterMap.mp member
  rcases propResult_eq_some_iff.mp equal with ⟨_, _, missing⟩ | ⟨value, _, checked⟩
  · rw [missing] at invalid
    cases invalid
    exact List.cons_ne_nil _ _
  · rw [checked, except_map_eq_error_iff] at invalid
    exact reporting prop inProps _ _ found invalid

/-- What an accepted object was built from: each part is what a declared shape made of the value that
stands under its key. -/
theorem validate_object_origin {name : String} {props : List (String × Shape ω)} {lenient : Bool}
    (reporting : ∀ prop ∈ props, prop.2.Reporting) {input : Json} {here : Position} {d : Decoded ω}
    (accepted : (object name props lenient).validate input here = .ok d) :
    ∃ fields parts, input = .obj fields ∧ d = .obj (rebuild fields parts) ∧
      props.filterMap (propResult lenient fields here) = parts.map .ok ∧
      ∀ entry ∈ parts, ∃ prop ∈ props, prop.1 = entry.1 ∧ ∃ value,
        Fields.get? prop.1 fields = some value ∧ prop.2.validate value (here.field prop.1) = .ok entry.2 := by
  cases input with
  | obj fields =>
    rw [validate, validateProps_eq_collect] at accepted
    obtain ⟨parts, results, rfl⟩ :=
      (Findings.finish_collect_eq_ok_iff (reports_propResult reporting)).mp accepted
    refine ⟨fields, parts, rfl, rfl, results, fun entry member => ?_⟩
    have inResults : .ok entry ∈ props.filterMap (propResult lenient fields here) := by
      rw [results]
      exact List.mem_map_of_mem member
    obtain ⟨prop, inProps, equal⟩ := List.mem_filterMap.mp inResults
    rcases propResult_eq_some_iff.mp equal with ⟨_, _, missing⟩ | ⟨value, present, checked⟩
    · cases missing
    · obtain ⟨part, validated, rfl⟩ := except_map_eq_ok_iff.mp checked.symm
      exact ⟨prop, inProps, rfl, value, present, validated⟩
  | _ => cases accepted

/-- An object that is accepted holds, under every declared key that is present, what the shape of
that key decoded. -/
theorem validate_object_eq_ok {name : String} {props : List (String × Shape ω)} {lenient : Bool}
    (nodup : (Fields.keys props).Nodup) (reporting : ∀ prop ∈ props, prop.2.Reporting) {input : Json}
    {here : Position} {d : Decoded ω} (accepted : (object name props lenient).validate input here = .ok d) :
    ∃ fields parts, input = .obj fields ∧ d = .obj (rebuild fields parts) ∧
      (∀ prop ∈ props, ∀ value, Fields.get? prop.1 fields = some value →
        ∃ part, Fields.last? prop.1 parts = some part ∧
          prop.2.validate value (here.field prop.1) = .ok part) ∧
      (∀ key, key ∉ Fields.keys props → Fields.last? key parts = none) ∧
      ∀ prop ∈ props, Fields.get? prop.1 fields = none → lenient = true := by
  obtain ⟨fields, parts, rfl, rfl, results, origin⟩ := validate_object_origin reporting accepted
  have outcome : ∀ prop ∈ props, ∀ result, propResult lenient fields here prop = some result →
      ∃ entry ∈ parts, .ok entry = result := by
    intro prop member result equal
    have inResults := List.mem_filterMap.mpr ⟨prop, member, equal⟩
    rw [results] at inResults
    exact List.mem_map.mp inResults
  refine ⟨fields, parts, rfl, rfl, ?_, ?_, ?_⟩
  · intro prop member value present
    obtain ⟨entry, inParts, equal⟩ := outcome prop member _
      (propResult_eq_some_iff.mpr (Or.inr ⟨value, present, rfl⟩))
    obtain ⟨_, _, rfl⟩ := except_map_eq_ok_iff.mp equal.symm
    cases last : Fields.last? prop.1 parts with
    | none => exact absurd (Fields.mem_keys_of_mem inParts) (Fields.last?_eq_none_iff.mp last)
    | some part =>
      obtain ⟨other, inProps, sameKey, value', present', validated⟩ := origin _ (Fields.mem_of_last? last)
      cases Fields.eq_of_mem_of_key_eq nodup inProps member sameKey
      cases present.symm.trans present'
      exact ⟨part, rfl, validated⟩
  · intro key absent
    rw [Fields.last?_eq_none_iff]
    intro known
    obtain ⟨entry, inParts, rfl⟩ := List.mem_map.mp known
    obtain ⟨prop, inProps, sameKey, _⟩ := origin entry inParts
    exact absent (sameKey ▸ Fields.mem_keys_of_mem inProps)
  · intro prop member absent
    cases strict : lenient with
    | true => rfl
    | false =>
      obtain ⟨entry, _, equal⟩ := outcome prop member _
        (propResult_eq_some_iff.mpr (Or.inl ⟨absent, strict, rfl⟩))
      cases equal

/-- An object rejects for a missing key, when it is strict, or for a part that is rejected. -/
theorem validate_object_eq_invalid {name : String} {props : List (String × Shape ω)} {lenient : Bool}
    {fields : Fields Json} {here : Position} {found : List Mismatch}
    (rejected : (object name props lenient).validate (.obj fields) here = .error (.invalid found)) :
    found ≠ [] ∧ ∃ prop ∈ props, (Fields.get? prop.1 fields = none ∧ lenient = false) ∨
      ∃ value, Fields.get? prop.1 fields = some value ∧
        ∃ place more, prop.2.validate value place = .error (.invalid more) := by
  rw [validate, validateProps_eq_collect] at rejected
  obtain ⟨nonempty, more, member⟩ := Findings.exists_invalid_of_finish rejected
  obtain ⟨prop, inProps, equal⟩ := List.mem_filterMap.mp member
  refine ⟨nonempty, prop, inProps, ?_⟩
  rcases propResult_eq_some_iff.mp equal with ⟨absent, strict, _⟩ | ⟨value, present, checked⟩
  · exact Or.inl ⟨absent, strict⟩
  · exact Or.inr ⟨value, present, _, more, except_map_eq_error_iff.mp checked.symm⟩

theorem object_reporting (name : String) (props : List (String × Shape ω)) (lenient : Bool) :
    (object name props lenient).Reporting := by
  intro input here found rejected
  cases input with
  | obj fields => exact (validate_object_eq_invalid rejected).1
  | _ => exact reports_single here _ _ found rejected

theorem validate_object_eq_fatal {name : String} {props : List (String × Shape ω)} {lenient : Bool}
    {input : Json} {here : Position} {e : DecodeError}
    (failed : (object name props lenient).validate input here = .error (.fatal e)) :
    ∃ prop ∈ props, ∃ fields value place, input = .obj fields ∧ Fields.get? prop.1 fields = some value ∧
      prop.2.validate value place = .error (.fatal e) := by
  cases input with
  | obj fields =>
    rw [validate, validateProps_eq_collect] at failed
    have member := Findings.mem_of_finish_eq_fatal failed
    obtain ⟨prop, inProps, equal⟩ := List.mem_filterMap.mp member
    rcases propResult_eq_some_iff.mp equal with ⟨_, _, missing⟩ | ⟨value, present, checked⟩
    · cases missing
    · exact ⟨prop, inProps, fields, value, _, rfl, present, except_map_eq_error_iff.mp checked.symm⟩
  | _ => cases failed

section Passes

variable {fields : Fields Json} {here : Position} {d : Decoded ω}

/-- A result that names no mismatch. -/
def Silent {α : Type} (result : Except Failure α) : Prop := ∀ f, result = .error f → f = .invalid []

/-- A declared key finds nothing wrong with an object. -/
def Passes (lenient : Bool) (fields : Fields Json) (here : Position) (prop : String × Shape ω) : Prop :=
  match Fields.get? prop.1 fields with
  | some value => Silent (prop.2.validate value (here.field prop.1))
  | none => lenient = true

/-- A declaration passes when it says nothing. -/
theorem silent_propResult_iff {lenient : Bool} {prop : String × Shape ω} :
    (∀ f, propResult lenient fields here prop = some (.error f) → f = .invalid []) ↔
      Passes lenient fields here prop := by
  rw [propResult, Passes]
  cases Fields.get? prop.1 fields with
  | some value =>
    simp only [Option.some.injEq, except_map_eq_error_iff]
    rfl
  | none => cases lenient <;> simp [Failure.single]

/-- What the last declaration of a key that accepts a value makes of it. -/
def taken (here : Position) (props : List (String × Shape ω)) (key : String) (value : Json) : Option (Decoded ω) :=
  Fields.lastSome? key (fun s => (s.validate value (here.field key)).toOption) props

/-- The part that is kept for a key is that of its last declaration with an accepted value. -/
theorem last?_eq_taken (lenient : Bool) (fields : Fields Json) (here : Position) (props : List (String × Shape ω))
    (key : String) :
    Fields.last? key ((props.filterMap (propResult lenient fields here)).filterMap Except.toOption) =
      (Fields.get? key fields).bind (taken here props key) := by
  simp only [List.filterMap_filterMap, propResult_bind_toOption]
  refine (Fields.last?_filterMap_eq_lastSome? (fun key s => (Fields.get? key fields).bind fun value =>
    (s.validate value (here.field key)).toOption) key props).trans ?_
  cases Fields.get? key fields with
  | none => exact Fields.lastSome?_none key props
  | some value => rfl

/-- How a field is decoded by the declarations of one side. -/
def decodedBy (here : Position) (props : List (String × Shape ω)) (key : String) (value : Json) : Decoded ω :=
  (taken here props key value).getD (.ofJson value)

/-- A field stays as it was read or is what one of its declarations makes of it. -/
theorem decodedBy_origin (here : Position) (props : List (String × Shape ω)) (key : String) (value : Json) :
    decodedBy here props key value = .ofJson value ∨
      ∃ s, (key, s) ∈ props ∧ s.validate value (here.field key) = .ok (decodedBy here props key value) := by
  cases found : taken here props key value with
  | none => exact Or.inl (by rw [decodedBy, found, Option.getD_none])
  | some d =>
    obtain ⟨⟨name, s⟩, listed, rfl, kept⟩ := Fields.exists_of_lastSome? found
    refine Or.inr ⟨s, listed, ?_⟩
    rw [decodedBy, found, Option.getD_some]
    cases validated : s.validate value (here.field name) with
    | ok part =>
      rw [validated] at kept
      cases kept
      rfl
    | error f =>
      rw [validated] at kept
      cases kept

/-- An object is accepted where no declared key finds a mismatch, and decoded field by field. -/
theorem validate_object_obj_iff (nodup : (Fields.keys fields).Nodup) {name : String} {props : List (String × Shape ω)}
    {lenient : Bool} : (object name props lenient).validate (.obj fields) here = .ok d ↔
      (∀ prop ∈ props, Passes lenient fields here prop) ∧ d = .obj (fields.mapWithKey (decodedBy here props)) := by
  rw [validate, validateProps_eq_collect, Findings.finish_eq_ok_iff]
  have silent : (∀ f, .error f ∈ props.filterMap (propResult lenient fields here) → f = .invalid []) ↔
      ∀ prop ∈ props, Passes lenient fields here prop := by
    simp only [← silent_propResult_iff, List.mem_filterMap, forall_exists_index, and_imp]
    exact ⟨fun each prop member f => each f prop member, fun each f prop member => each prop member f⟩
  have rebuilt : rebuild fields ((props.filterMap (propResult lenient fields here)).filterMap Except.toOption) =
      fields.mapWithKey (decodedBy here props) := by
    rw [rebuild_eq_mapWithKey]
    refine Fields.mapWithKey_congr fun entry member => ?_
    rw [last?_eq_taken, (Fields.get?_eq_some_iff nodup).mpr member]
    rfl
  rw [silent, rebuilt, eq_comm (a := d)]

end Passes

end Props

section Intersection

variable {name : String} {left right : Shape ω} {input : Json} {here : Position}

/-- An intersection accepts what both sides accept, and merges their values. -/
theorem validate_intersection_eq_ok_iff {d : Decoded ω} :
    (intersection name left right).validate input here = .ok d ↔ ∃ a b,
      left.validate input here = .ok a ∧ right.validate input here = .ok b ∧ merge a b = d := by
  cases first : left.validate input here <;> cases second : right.validate input here <;>
    simp [validate, first, second]

theorem validate_intersection_eq_invalid (leftReports : left.Reporting) (rightReports : right.Reporting)
    {found : List Mismatch}
    (rejected : (intersection name left right).validate input here = .error (.invalid found)) :
    found ≠ [] ∧ ((∃ more, left.validate input here = .error (.invalid more)) ∨
      ∃ more, right.validate input here = .error (.invalid more)) := by
  cases first : left.validate input here with
  | ok a => cases second : right.validate input here with
    | ok b => simp [validate, first, second] at rejected
    | error g =>
      simp only [validate, first, second, Except.error.injEq] at rejected
      subst rejected
      exact ⟨rightReports _ _ _ second, Or.inr ⟨_, rfl⟩⟩
  | error f => cases second : right.validate input here with
    | ok b =>
      simp only [validate, first, second, Except.error.injEq] at rejected
      subst rejected
      exact ⟨leftReports _ _ _ first, Or.inl ⟨_, rfl⟩⟩
    | error g =>
      simp only [validate, first, second, Except.error.injEq] at rejected
      cases f with
      | fatal e => cases rejected
      | invalid known => cases g with
        | fatal e => cases rejected
        | invalid more =>
          cases rejected
          exact ⟨foldl_addNew_ne_nil (leftReports _ _ _ first) _, Or.inl ⟨_, rfl⟩⟩

theorem intersection_reporting (leftReports : left.Reporting) (rightReports : right.Reporting) :
    (intersection name left right).Reporting :=
  fun _ _ _ rejected => (validate_intersection_eq_invalid leftReports rightReports rejected).1

theorem validate_intersection_eq_fatal {e : DecodeError}
    (failed : (intersection name left right).validate input here = .error (.fatal e)) :
    left.validate input here = .error (.fatal e) ∨ right.validate input here = .error (.fatal e) := by
  cases first : left.validate input here with
  | ok a => cases second : right.validate input here with
    | ok b => simp [validate, first, second] at failed
    | error g =>
      simp only [validate, first, second, Except.error.injEq] at failed
      exact Or.inr (failed ▸ rfl)
  | error f => cases second : right.validate input here with
    | ok b =>
      simp only [validate, first, second, Except.error.injEq] at failed
      exact Or.inl (failed ▸ rfl)
    | error g =>
      simp only [validate, first, second, Except.error.injEq] at failed
      cases f with
      | fatal e' =>
        cases failed
        exact Or.inl rfl
      | invalid known => cases g with
        | invalid more => cases failed
        | fatal e' =>
          cases failed
          exact Or.inr rfl

end Intersection

/-- A refinement rejects for its base, or with one line of its own. -/
theorem validate_refine_eq_invalid {name : String} {base : Shape ω} {fits : Decoded ω → Bool} {input : Json}
    {here : Position} {found : List Mismatch}
    (rejected : (refine name base fits).validate input here = .error (.invalid found)) :
    base.validate input here = .error (.invalid found) ∨ found = [⟨here.path, name, some input⟩] := by
  cases result : base.validate input here with
  | error f =>
    simp only [validate, result] at rejected
    exact Or.inl rejected
  | ok d =>
    simp only [validate, result] at rejected
    split at rejected
    · cases rejected
    · cases rejected
      exact Or.inr rfl

theorem refine_reporting {name : String} {base : Shape ω} {fits : Decoded ω → Bool} (reporting : base.Reporting) :
    (refine name base fits).Reporting := by
  intro input here found rejected
  rcases validate_refine_eq_invalid rejected with inner | own
  · exact reporting input here found inner
  · rw [own]
    exact List.cons_ne_nil _ _

theorem withAttrs_reporting {inner : Shape ω} (reporting : inner.Reporting) : (withAttrs inner).Reporting := by
  intro input here found rejected
  rw [validate, except_map_eq_error_iff] at rejected
  exact reporting input here found rejected

section Class

variable {className : String} {inner : Shape ω} {showsAttrs : Bool} {construct : Json → Except String (Product ω)}
  {input : Json} {here : Position}

/-- What a class hands to its constructor. -/
def handed (inner : Shape ω) (showsAttrs : Bool) (structural : Decoded ω) : Json :=
  if showsAttrs then addAttrs (encode inner structural) else encode inner structural

/-- An instance is built from the encoding of what the shape under the class decoded. -/
theorem validate_ofClass_eq_ok {d : Decoded ω}
    (accepted : (ofClass className inner showsAttrs construct).validate input here = .ok d) :
    ∃ structural product, inner.validate input here = .ok structural ∧
      construct (handed inner showsAttrs structural) = .ok product ∧
      d = .constructed className (handed inner showsAttrs structural) product := by
  cases validated : inner.validate input here with
  | error f => simp [validate, validated] at accepted
  | ok structural =>
    simp only [validate, validated, constructFrom] at accepted
    split at accepted
    · rename_i product made
      cases accepted
      exact ⟨structural, product, rfl, made, rfl⟩
    · cases accepted

/-- A class rejects only what the shape under it rejects. -/
theorem validate_ofClass_eq_invalid {found : List Mismatch}
    (rejected : (ofClass className inner showsAttrs construct).validate input here = .error (.invalid found)) :
    inner.validate input here = .error (.invalid found) := by
  cases validated : inner.validate input here with
  | error f =>
    simp only [validate, validated] at rejected
    exact rejected
  | ok structural =>
    simp only [validate, validated, constructFrom] at rejected
    split at rejected
    · cases rejected
    · cases rejected

theorem ofClass_reporting (reporting : inner.Reporting) : (ofClass className inner showsAttrs construct).Reporting :=
  fun input here found rejected => reporting input here found (validate_ofClass_eq_invalid rejected)

/-- A class fails where the shape under it fails or its constructor refuses. -/
theorem validate_ofClass_eq_fatal {e : DecodeError}
    (failed : (ofClass className inner showsAttrs construct).validate input here = .error (.fatal e)) :
    inner.validate input here = .error (.fatal e) ∨ ∃ structural message,
      inner.validate input here = .ok structural ∧ construct (handed inner showsAttrs structural) = .error message := by
  cases validated : inner.validate input here with
  | error f =>
    simp only [validate, validated] at failed
    exact Or.inl failed
  | ok structural =>
    simp only [validate, validated, constructFrom] at failed
    split at failed
    · cases failed
    · rename_i message refused
      exact Or.inr ⟨structural, message, rfl, refused⟩

end Class

end Conform.Shape
