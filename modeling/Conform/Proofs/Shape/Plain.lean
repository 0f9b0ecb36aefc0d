import Conform.Proofs.Shape.Composed
import Conform.Proofs.Shape.Encode

namespace Conform

namespace Shape

variable {ω : Type}

/-- A shape put together from scalars and any checks, in which nothing is constructed, added or taken away. A key
may be declared again, and the two sides of an intersection may declare the same keys. -/
inductive Plain : Shape ω → Prop
  | scalar (kind : Scalar) : Plain (scalar kind)
  | array {element : Shape ω} : Plain element → Plain (array element)
  | union {members : List (Shape ω)} (each : ∀ member ∈ members, Plain member) : Plain (union members)
  | object {name : String} {props : List (String × Shape ω)} {lenient : Bool}
      (each : ∀ prop ∈ props, Plain prop.2) : Plain (object name props lenient)
  | intersection {name : String} {left right : Shape ω} :
      Plain left → Plain right → Plain (intersection name left right)
  | refine {name : String} {base : Shape ω} {accepts : Decoded ω → Bool} : Plain base → Plain (refine name base accepts)

theorem Plain.oneOf {members : List (Shape ω)} (each : ∀ member ∈ members, member.Plain) : (oneOf members).Plain := by
  match members with
  | [] => exact .union each
  | [only] => exact each only List.mem_cons_self
  | _ :: _ :: _ => exact .union each

theorem Plain.matching (name : String) (accepts : String → Bool) : (matching name accepts : Shape ω).Plain :=
  .refine (.scalar .string)

/-- A shape that takes an input as it was read where that belongs to it, and rejects any other. -/
structure Sifts (s : Shape ω) : Prop where
  reporting : s.Reporting
  not_fatal : ∀ {input : Json} {here : Position} {e : DecodeError}, s.validate input here ≠ .error (.fatal e)
  of_ok : ∀ {input : Json} {here : Position} {d : Decoded ω}, input.Distinct → s.validate input here = .ok d →
    d = .ofJson input ∧ s.is (.ofJson input) = true
  of_invalid : ∀ {input : Json} {here : Position} {found : List Mismatch}, input.Distinct →
    s.validate input here = .error (.invalid found) → s.is (.ofJson input) = false

namespace Sifts

theorem scalar (kind : Scalar) : (scalar kind : Shape ω).Sifts where
  reporting := (leaf_scalar kind).reporting
  not_fatal failed := by
    obtain ⟨_, _, own⟩ := (leaf_scalar kind).of_error failed
    cases own
  of_ok _ accepted := by
    obtain ⟨fits, rfl⟩ := (leaf_scalar kind).of_ok accepted
    rw [Scalar.accepts_eq_holds, ← is_scalar_ofJson] at fits
    exact ⟨rfl, fits⟩
  of_invalid _ rejected := by
    obtain ⟨unfit, _⟩ := (leaf_scalar kind).of_error rejected
    rw [Scalar.accepts_eq_holds, ← is_scalar_ofJson] at unfit
    exact unfit

theorem eq_map_of_forall₂ {items : List Json} {parts : List (Decoded ω)} {P : Json → Prop}
    (each : List.Forall₂ (fun item part => part = .ofJson item ∧ P item) items parts) :
    parts = items.map .ofJson ∧ ∀ item ∈ items, P item := by
  induction each with
  | nil => exact ⟨rfl, fun _ member => nomatch member⟩
  | cons first _ ih =>
    obtain ⟨rfl, holds⟩ := first
    exact ⟨congrArg _ ih.1, List.forall_mem_cons.mpr ⟨holds, ih.2⟩⟩

theorem array {element : Shape ω} (sifts : element.Sifts) : (array element).Sifts where
  reporting := array_reporting element
  not_fatal {input here e} failed := by
    cases input with
    | arr items =>
      obtain ⟨item, _, place, fatal⟩ := validate_array_eq_fatal failed
      exact sifts.not_fatal fatal
    | _ => cases failed
  of_ok {input here d} distinct accepted := by
    cases input with
    | arr items =>
      obtain ⟨parts, rfl, each⟩ := validate_array_eq_ok sifts.reporting accepted
      obtain ⟨rfl, fits⟩ := eq_map_of_forall₂ (forall₂_imp_of_mem each fun item member _ _ ⟨_, validated⟩ =>
        sifts.of_ok (Json.distinct_arr_iff.mp distinct item member) validated)
      exact ⟨(Decoded.ofJson_arr items).symm, is_array_ofJson.mpr fits⟩
    | _ => cases accepted
  of_invalid {input here found} distinct rejected := by
    cases input with
    | arr items =>
      obtain ⟨item, member, place, more, invalid⟩ := validate_array_eq_invalid rejected
      have unfit := sifts.of_invalid (Json.distinct_arr_iff.mp distinct item member) invalid
      rw [Bool.eq_false_iff, ne_eq, is_array_ofJson]
      exact fun each => Bool.eq_false_iff.mp unfit (each item member)
    | _ => rfl

theorem union {members : List (Shape ω)} (each : ∀ member ∈ members, member.Sifts) : (union members).Sifts where
  reporting := union_reporting fun member listed => (each member listed).reporting
  not_fatal failed := by
    obtain ⟨member, listed, fatal⟩ := validate_union_eq_fatal failed
    exact (each member listed).not_fatal fatal
  of_ok distinct accepted := by
    obtain ⟨before, member, after, rfl, _, validated⟩ := validate_union_eq_ok_iff.mp accepted
    have listed : member ∈ before ++ member :: after := List.mem_append_right _ List.mem_cons_self
    obtain ⟨same, fits⟩ := (each member listed).of_ok distinct validated
    exact ⟨same, someIs_iff.mpr ⟨member, listed, fits⟩⟩
  of_invalid distinct rejected := by
    rw [Bool.eq_false_iff, ne_eq, is, someIs_iff]
    rintro ⟨member, listed, fits⟩
    obtain ⟨_, rejectedByAll⟩ := validate_union_eq_invalid (fun m inside => (each m inside).reporting) rejected
    obtain ⟨_, invalid⟩ := rejectedByAll member listed
    exact Bool.eq_false_iff.mp ((each member listed).of_invalid distinct invalid) fits

section Object

variable {props : List (String × Shape ω)} {fields : Fields Json}

/-- Whichever declarations of a key accept a value, it stays as it was read. -/
theorem decodedBy_eq_ofJson (each : ∀ prop ∈ props, prop.2.Sifts) (here : Position) (key : String) {value : Json}
    (distinct : value.Distinct) : decodedBy here props key value = .ofJson value := by
  rcases decodedBy_origin here props key value with same | ⟨s, listed, validated⟩
  · exact same
  · exact ((each _ listed).of_ok distinct validated).1

/-- Fields that are kept make an object that is kept, undeclared ones included. -/
theorem object (name : String) (lenient : Bool) (each : ∀ prop ∈ props, prop.2.Sifts) :
    (object name props lenient).Sifts where
  reporting := object_reporting name props lenient
  not_fatal failed := by
    obtain ⟨prop, listed, _, _, _, _, _, fatal⟩ := validate_object_eq_fatal failed
    exact (each prop listed).not_fatal fatal
  of_ok {input here d} distinct accepted := by
    cases input with
    | obj fields =>
      obtain ⟨nodup, inside⟩ := Json.distinct_obj_iff.mp distinct
      obtain ⟨passes, rfl⟩ := (validate_object_obj_iff nodup).mp accepted
      constructor
      · rw [Decoded.ofJson_obj]
        exact congrArg Decoded.obj (Fields.mapWithKey_congr fun entry member =>
          decodedBy_eq_ofJson each here entry.1 (inside entry member))
      · refine is_object_ofJson.mpr fun prop listed => ?_
        have passesHere := passes prop listed
        rw [Passes] at passesHere
        cases present : Fields.get? prop.1 fields with
        | none =>
          rw [present] at passesHere
          exact ⟨fun _ => passesHere, fun _ same => by cases same⟩
        | some value =>
          rw [present] at passesHere
          refine ⟨(fun absent => by cases absent), fun _ same => Option.some.inj same ▸ ?_⟩
          cases validated : prop.2.validate value (here.field prop.1) with
          | ok part => exact ((each prop listed).of_ok (inside _ (Fields.mem_of_get? present)) validated).2
          | error f =>
            cases passesHere f validated
            exact absurd rfl ((each prop listed).reporting _ _ _ validated)
    | _ => cases accepted
  of_invalid {input here found} distinct rejected := by
    cases input with
    | obj fields =>
      obtain ⟨_, prop, listed, outcome⟩ := validate_object_eq_invalid rejected
      rw [Bool.eq_false_iff, ne_eq, is_object_ofJson]
      intro fits
      obtain ⟨mayBeAbsent, belongs⟩ := fits prop listed
      rcases outcome with ⟨absent, strict⟩ | ⟨value, present, _, _, invalid⟩
      · exact Bool.eq_false_iff.mp strict (mayBeAbsent absent)
      · have inside := (Json.distinct_obj_iff.mp distinct).2 _ (Fields.mem_of_get? present)
        exact Bool.eq_false_iff.mp ((each prop listed).of_invalid inside invalid) (belongs value present)
    | _ => rfl

end Object

/-- Two copies of what was read are merged to what was read. -/
theorem merge_ofJson {input : Json} (distinct : input.Distinct) :
    merge (.ofJson input) (.ofJson input) = (.ofJson input : Decoded ω) := by
  cases input with
  | obj fields =>
    rw [Decoded.ofJson_obj, merge_mapWithKey (Json.distinct_obj_iff.mp distinct).1]
    simp only [keepConstructed, ite_self]
  | _ => rfl

/-- Two copies of one input merge into it. -/
theorem intersection (name : String) {left right : Shape ω} (leftSifts : left.Sifts) (rightSifts : right.Sifts) :
    (intersection name left right).Sifts where
  reporting := intersection_reporting leftSifts.reporting rightSifts.reporting
  not_fatal failed := by
    rcases validate_intersection_eq_fatal failed with fatal | fatal
    · exact leftSifts.not_fatal fatal
    · exact rightSifts.not_fatal fatal
  of_ok distinct accepted := by
    obtain ⟨a, b, first, second, rfl⟩ := validate_intersection_eq_ok_iff.mp accepted
    obtain ⟨rfl, fitsLeft⟩ := leftSifts.of_ok distinct first
    obtain ⟨rfl, fitsRight⟩ := rightSifts.of_ok distinct second
    exact ⟨merge_ofJson distinct, by rw [is, fitsLeft, fitsRight, Bool.and_self]⟩
  of_invalid distinct rejected := by
    rw [is, Bool.and_eq_false_iff]
    rcases (validate_intersection_eq_invalid leftSifts.reporting rightSifts.reporting rejected).2 with
      ⟨_, invalid⟩ | ⟨_, invalid⟩
    · exact Or.inl (leftSifts.of_invalid distinct invalid)
    · exact Or.inr (rightSifts.of_invalid distinct invalid)

theorem refine (name : String) {base : Shape ω} (accepts : Decoded ω → Bool) (sifts : base.Sifts) :
    (refine name base accepts).Sifts where
  reporting := refine_reporting sifts.reporting
  not_fatal {input here e} failed := by
    cases validated : base.validate input here with
    | ok d =>
      simp only [validate, validated] at failed
      split at failed <;> cases failed
    | error f =>
      simp only [validate, validated] at failed
      exact sifts.not_fatal (validated.trans failed)
  of_ok {input here d} distinct accepted := by
    cases validated : base.validate input here with
    | ok kept =>
      obtain ⟨rfl, fits⟩ := sifts.of_ok distinct validated
      simp only [validate, validated] at accepted
      split at accepted
      · rename_i passes
        cases accepted
        exact ⟨rfl, by rw [is, fits, passes, Bool.and_self]⟩
      · cases accepted
    | error f =>
      simp only [validate, validated] at accepted
      cases accepted
  of_invalid {input here found} distinct rejected := by
    rw [is, Bool.and_eq_false_iff]
    cases validated : base.validate input here with
    | ok kept =>
      obtain ⟨rfl, _⟩ := sifts.of_ok distinct validated
      simp only [validate, validated] at rejected
      split at rejected
      · cases rejected
      · rename_i fails
        exact Or.inr (Bool.eq_false_iff.mpr fails)
    | error f =>
      simp only [validate, validated] at rejected
      exact Or.inl (sifts.of_invalid distinct (validated.trans rejected))

end Sifts

/-- A plain shape lets its input through or reports it, and never fails: by induction on the shape. -/
theorem Plain.sifts {s : Shape ω} (plain : s.Plain) : s.Sifts := by
  induction plain with
  | scalar kind => exact .scalar kind
  | array _ ih => exact ih.array
  | union _ ih => exact .union ih
  | object _ ih => exact .object _ _ ih
  | intersection _ _ first second => exact .intersection _ first second
  | refine _ ih => exact .refine _ _ ih

theorem encodeByFirst_getD {members : List (Shape ω)} {d : Decoded ω}
    (each : ∀ member ∈ members, member.encode d = d.toJson) : (encodeByFirst members d).getD d.toJson = d.toJson := by
  induction members with
  | nil => rfl
  | cons member rest ih =>
    obtain ⟨here, later⟩ := List.forall_mem_cons.mp each
    rw [encodeByFirst]
    split
    · exact here
    · exact ih later

theorem encodeField_eq_toJson {props : List (String × Shape ω)} {d : Decoded ω}
    (each : ∀ prop ∈ props, prop.2.encode d = d.toJson) (key : String) : encodeField props key d = d.toJson := by
  rw [encodeField, encodeProp_eq_last?]
  cases found : Fields.last? key props with
  | none => rfl
  | some shape => exact each _ (Fields.mem_of_last? found)

/-- Whatever the value, its encoding is its structural view. -/
theorem Plain.encode_eq_toJson {s : Shape ω} (plain : s.Plain) {d : Decoded ω} (distinct : d.toJson.Distinct) :
    s.encode d = d.toJson := by
  induction plain generalizing d with
  | scalar kind => rw [encode]
  | array _ ih =>
    cases d with
    | arr items =>
      rw [Decoded.toJson_arr] at distinct ⊢
      rw [encode]
      exact congrArg Json.arr (List.map_congr_left fun item member =>
        ih (Json.distinct_arr_iff.mp distinct _ (List.mem_map_of_mem member)))
    | _ => rfl
  | union _ ih =>
    rw [encode]
    exact encodeByFirst_getD fun member listed => ih member listed distinct
  | @object name props lenient _ ih =>
    cases d with
    | obj fields =>
      obtain ⟨_, inside⟩ := Decoded.distinct_obj_iff.mp distinct
      rw [encode_object_obj, Decoded.toJson_obj]
      exact congrArg Json.obj (Fields.mapWithKey_congr fun entry member =>
        encodeField_eq_toJson (fun prop listed => ih prop listed (inside entry member)) entry.1)
    | _ => rfl
  | intersection _ _ first second =>
    rw [encode, first distinct, second distinct]
    split
    · rename_i fields shown
      have nodup : (Fields.keys fields).Nodup := (Json.distinct_obj_iff.mp (shown ▸ distinct)).1
      rw [shown, overlay_self nodup, overlay_self nodup]
    · rfl
  | refine _ ih =>
    rw [encode]
    exact ih distinct

/-- A shape that constructs nothing is a filter: an input is taken as it was read, its keys in their order, exactly
where that belongs to the shape, and is invalid otherwise. A value is encoded as its structural view, whether or not
it belongs to the shape. -/
theorem plain_shape_filters {s : Shape ω} (plain : s.Plain) :
    (∀ input : Json, input.Distinct →
      (s.decode input = .ok (.ofJson input) ∨ ∃ found, found ≠ [] ∧ s.decode input = .error (.invalid found)) ∧
      (s.is (.ofJson input) = true ↔ s.accepts input = true)) ∧
    ∀ d : Decoded ω, d.toJson.Distinct → s.encode d = d.toJson := by
  refine ⟨fun input distinct => ?_, fun d distinct => plain.encode_eq_toJson distinct⟩
  have sifts := plain.sifts
  cases result : s.decode input with
  | ok d =>
    obtain ⟨rfl, fits⟩ := sifts.of_ok distinct result
    exact ⟨Or.inl rfl, by simp [accepts, result, fits, Except.isOk, Except.toBool]⟩
  | error f => cases f with
    | invalid found =>
      have unfit := sifts.of_invalid distinct result
      exact ⟨Or.inr ⟨found, sifts.reporting _ _ _ result, rfl⟩, by
        simp [accepts, result, unfit, Except.isOk, Except.toBool]⟩
    | fatal e => exact absurd result sifts.not_fatal

section Article

/-- An article whose code is declared twice, with a label that both sides declare. -/
def articleShape : Shape Json :=
  .both (some "Article")
    (.strict none [("code", .string), ("label", .oneOf [.string, .null]), ("code", .matching "Code" (· ≠ ""))])
    (.lenient none [("label", .string), ("sizes", .refine "Few" (.array .number) fun d => !d.holdsConstructed)])

def articleInput : Json :=
  .obj [("sizes", .arr [.num (.int 2)]), ("made", .obj [("by", .null)]), ("label", .str "mug"), ("code", .str "K7")]

/-- An article in whose place something was constructed. -/
def articleMade : Decoded Json :=
  .obj [("code", .constructed "Code" (.str "K7") (.made (.str "K7"))), ("label", .null)]

theorem articleShape_plain : articleShape.Plain := by
  have label : (oneOf [string, null] : Shape Json).Plain :=
    .oneOf (List.forall_mem_cons.mpr ⟨.scalar .string, List.forall_mem_singleton.mpr (.scalar .null)⟩)
  refine .intersection (.object ?_) (.object ?_)
  · exact List.forall_mem_cons.mpr ⟨.scalar .string, List.forall_mem_cons.mpr
      ⟨label, List.forall_mem_singleton.mpr (.matching _ _)⟩⟩
  · exact List.forall_mem_cons.mpr ⟨.scalar .string,
      List.forall_mem_singleton.mpr (.refine (.array (.scalar .number)))⟩

theorem articleInput_distinct : articleInput.Distinct :=
  ⟨by decide, ⟨trivial, trivial⟩, ⟨by decide, trivial, trivial⟩, trivial, trivial, trivial⟩

theorem articleMade_distinct : articleMade.toJson.Distinct := ⟨by decide, trivial, trivial, trivial⟩

theorem plain_shape_filters_article :
    articleShape.decode articleInput = .ok (.ofJson articleInput) ∧ articleShape.is (.ofJson articleInput) = true ∧
      articleShape.encode articleMade = .obj [("code", .str "K7"), ("label", .null)] := by
  obtain ⟨filters, encodes⟩ := plain_shape_filters articleShape_plain
  obtain ⟨outcome, belongs⟩ := filters articleInput articleInput_distinct
  have accepted : articleShape.accepts articleInput = true := rfl
  refine ⟨?_, belongs.mpr accepted, encodes articleMade articleMade_distinct⟩
  rcases outcome with same | ⟨found, _, rejected⟩
  · exact same
  · rw [accepts, rejected] at accepted
    cases accepted

end Article

end Shape

end Conform
