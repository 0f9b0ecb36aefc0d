import Conform.Proofs.ClassView
import Conform.Proofs.Entries
import Conform.Proofs.Schematic
import Conform.Proofs.Shape.Placement

namespace Conform

variable {ω : Type}

/-- A step that leaves fields as they are or puts an entry of others to them does not bring in a key that those lack. -/
theorem Fields.get?_foldl_eq_none {α : Type} {step : Fields α → String × α → Fields α} {key : String}
    (each : ∀ out entry, step out entry = out ∨ step out entry = insert entry.1 entry.2 out) {fields : Fields α}
    (absent : get? key fields = none) {out : Fields α} (before : get? key out = none) :
    get? key (fields.foldl step out) = none := by
  induction fields generalizing out with
  | nil => exact before
  | cons entry rest ih =>
    obtain ⟨different, later⟩ := not_mem_keys_cons.mp (get?_eq_none_iff.mp absent)
    refine ih (get?_eq_none_iff.mpr later) ?_
    rcases each out entry with same | put
    · rw [same, before]
    · rw [put, get?_insert, if_neg (Ne.symm different), before]

namespace Json

/-- A value with an empty `attrs` at its top. -/
def ShowsAttrs (value : Json) : Prop := ∃ fields, value = .obj fields ∧ Fields.get? attrsKey fields = some emptyObject

/-- A value without `attrs` at its top. -/
def LacksAttrs (value : Json) : Prop := ∀ fields, value = .obj fields → Fields.get? attrsKey fields = none

theorem lacksAttrs_obj_iff {fields : Fields Json} : (obj fields).LacksAttrs ↔ Fields.get? attrsKey fields = none :=
  ⟨fun lacks => lacks fields rfl, fun absent _ same => by cases same; exact absent⟩

theorem ShowsAttrs.not_lacksAttrs {value : Json} (shows : value.ShowsAttrs) : ¬value.LacksAttrs := by
  obtain ⟨fields, rfl, found⟩ := shows
  intro lacks
  have absent := lacks fields rfl
  rw [found] at absent
  cases absent

end Json

theorem Decoded.lacksAttrs_obj_iff {fields : Fields (Decoded ω)} :
    (Decoded.obj fields).toJson.LacksAttrs ↔ Fields.get? attrsKey fields = none := by
  rw [Decoded.toJson_obj, Json.lacksAttrs_obj_iff, Fields.get?_mapWithKey, Option.map_eq_none_iff]

namespace Shape

/-- A shape that brings no `attrs` in at the top of what it accepts. -/
def LeavesAttrsOut (s : Shape ω) : Prop :=
  ∀ fields d, Fields.get? attrsKey fields = none → s.decode (.obj fields) = .ok d → d.toJson.LacksAttrs

/-- A shape put together so that nothing in it adds an `attrs` at the top. -/
inductive AddsNone : Shape ω → Prop
  | scalar (kind : Scalar) : AddsNone (scalar kind)
  | stock (kind : Stock) : AddsNone kind.shape
  | array (element : Shape ω) : AddsNone (array element)
  | object (name : String) (props : List (String × Shape ω)) (lenient : Bool) : AddsNone (object name props lenient)
  | union {members : List (Shape ω)} (each : ∀ member ∈ members, AddsNone member) : AddsNone (union members)
  | intersection {name : String} {left right : Shape ω} :
      AddsNone left → AddsNone right → AddsNone (intersection name left right)
  | refine {name : String} {base : Shape ω} {accepts : Decoded ω → Bool} :
      AddsNone base → AddsNone (refine name base accepts)
  | ofClass {className : String} {inner : Shape ω} {construct : Json → Except String (Product ω)} :
      AddsNone inner → AddsNone (ofClass className inner false construct)

theorem mergeField_cases (out : Fields (Decoded ω)) (entry : String × Decoded ω) :
    mergeField out entry = out ∨ mergeField out entry = Fields.insert entry.1 entry.2 out := by
  unfold mergeField
  split
  · exact ite_eq_or_eq ..
  · exact Or.inr rfl

theorem overlayField_cases (plain out : Fields Json) (entry : String × Json) :
    overlayField plain out entry = out ∨ overlayField plain out entry = Fields.insert entry.1 entry.2 out := by
  unfold overlayField
  split
  · exact ite_eq_or_eq ..
  · exact Or.inr rfl

theorem lacksAttrs_merge {a b : Decoded ω} (first : a.toJson.LacksAttrs) (second : b.toJson.LacksAttrs) :
    (merge a b).toJson.LacksAttrs := by
  cases a with
  | obj left => cases b with
    | obj right =>
      rw [Decoded.lacksAttrs_obj_iff] at first second
      rw [merge_eq_foldl, Decoded.lacksAttrs_obj_iff]
      exact Fields.get?_foldl_eq_none mergeField_cases second first
    | _ => exact first
  | _ => exact first

theorem get?_overlay_eq_none {plain done : Fields Json} {part : Json} (lacks : part.LacksAttrs)
    (before : Fields.get? attrsKey done = none) : Fields.get? attrsKey (overlay plain done part) = none := by
  cases part with
  | obj fields => exact Fields.get?_foldl_eq_none (overlayField_cases plain) (Json.lacksAttrs_obj_iff.mp lacks) before
  | _ => exact before

namespace AddsNone

variable {s : Shape ω}

/-- What has no `attrs` is written without one. -/
theorem encode_lacksAttrs (adds : s.AddsNone) {d : Decoded ω} (lacks : d.toJson.LacksAttrs) :
    (s.encode d).LacksAttrs := by
  induction adds with
  | scalar kind => exact lacks
  | stock kind =>
    cases kind with
    | date =>
      show (Builtin.date.encode d).LacksAttrs
      unfold Builtin.date.encode
      split
      · rintro fields ⟨⟩
      · exact lacks
    | latitude | longitude | nonEmptyString => exact lacks
  | array element =>
    cases d with
    | arr items => rintro fields ⟨⟩
    | _ => exact lacks
  | object name props lenient =>
    cases d with
    | obj fields =>
      rw [encode_object_obj, Json.lacksAttrs_obj_iff, Fields.get?_mapWithKey, Option.map_eq_none_iff]
      exact Decoded.lacksAttrs_obj_iff.mp lacks
    | _ => exact lacks
  | @union members _ ih =>
    rw [encode, encodeByFirst_eq_find?]
    cases first : members.find? fun m => m.is d with
    | none => exact lacks
    | some member => exact ih member (List.mem_of_find?_eq_some first)
  | @intersection name left right _ _ first second =>
    rw [encode]
    split
    · rename_i plain same
      rw [same] at lacks
      -- Both encodings are laid over the plain object, and neither brings the key.
      have absent := Json.lacksAttrs_obj_iff.mp lacks
      exact Json.lacksAttrs_obj_iff.mpr (get?_overlay_eq_none second (get?_overlay_eq_none first absent))
    · exact first
  | refine _ ih => exact ih
  | @ofClass className inner construct _ ih =>
    cases d with
    | constructed other raw product =>
      rw [encode]
      split
      · exact lacks
      · exact ih
    | _ => exact ih

/-- What has no `attrs` is decoded to something without one. -/
theorem validate_lacksAttrs (adds : s.AddsNone) {fields : Fields Json} (absent : Fields.get? attrsKey fields = none)
    {here : Position} {d : Decoded ω} (accepted : s.validate (.obj fields) here = .ok d) : d.toJson.LacksAttrs := by
  have unchanged : (Json.obj fields).LacksAttrs := Json.lacksAttrs_obj_iff.mpr absent
  induction adds generalizing d with
  | scalar kind =>
    obtain ⟨_, rfl⟩ := (leaf_scalar kind).of_ok accepted
    rwa [Decoded.toJson_ofJson]
  | stock kind =>
    obtain ⟨_, rfl⟩ := kind.leaf_shape.of_ok accepted
    rwa [kind.toJson_value]
  | array element => cases accepted
  | object name props lenient =>
    rw [validate, validateProps_eq_collect] at accepted
    rw [← Findings.build_of_finish accepted, Decoded.lacksAttrs_obj_iff, rebuild_eq_mapWithKey, Fields.get?_mapWithKey,
      absent, Option.map_none]
  | @union members _ ih =>
    obtain ⟨before, member, after, rfl, _, chosen⟩ := validate_union_eq_ok_iff.mp accepted
    exact ih member (by simp) chosen
  | intersection _ _ first second =>
    obtain ⟨a, b, left, right, rfl⟩ := validate_intersection_eq_ok_iff.mp accepted
    exact lacksAttrs_merge (first left) (second right)
  | @refine name base accepts _ ih =>
    rw [validate] at accepted
    split at accepted
    · rename_i inner validated
      split at accepted
      · cases accepted
        exact ih validated
      · cases accepted
    · cases accepted
  | @ofClass className inner construct adds ih =>
    obtain ⟨structural, product, validated, _, rfl⟩ := validate_ofClass_eq_ok accepted
    exact adds.encode_lacksAttrs (ih validated)

theorem leavesAttrsOut (adds : s.AddsNone) : s.LeavesAttrsOut := fun _ _ absent accepted =>
  adds.validate_lacksAttrs absent accepted

end AddsNone

/-- A shape that was made from a schema, for itself or inside a class, with the note whether the schema declares
`attrs`. -/
inductive FromSchema : Shape ω → Bool → Prop
  | schema (label : Option String) (attrs : Bool) (required optional : List (String × Shape ω)) :
      FromSchema (ofProps label attrs required optional) attrs
  | ofClass (className : String) (label : Option String) (attrs : Bool) (required optional : List (String × Shape ω))
      (construct : Json → Except String (Product ω)) :
      FromSchema (ofClass className (ofProps label attrs required optional) attrs construct) attrs

section FromSchema

variable {label : Option String} {required optional : List (String × Shape ω)} {s : Shape ω}

theorem addsNone_ofParts : (ofParts label required optional).AddsNone := by
  cases required with
  | nil => exact .object ..
  | cons => cases optional with
    | nil => exact .object ..
    | cons => exact .intersection (.object ..) (.object ..)

/-- A schema that does not declare the reserved key makes a shape that does not add it. -/
theorem FromSchema.addsNone (made : s.FromSchema false) : s.AddsNone := by
  cases made with
  | schema => exact addsNone_ofParts
  | ofClass => exact .ofClass addsNone_ofParts

theorem exists_encode_ofParts_obj (fields : Fields (Decoded ω)) :
    ∃ out, (ofParts label required optional).encode (.obj fields) = .obj out := by
  cases required with
  | nil => exact ⟨_, encode_object_obj ..⟩
  | cons => cases optional with
    | nil => exact ⟨_, encode_object_obj ..⟩
    | cons =>
      simp only [ofParts, both, encode, Decoded.toJson_obj]
      exact ⟨_, rfl⟩

theorem showsAttrs_setAttrs (fields : Fields (Decoded ω)) : (setAttrs (.obj fields)).toJson.ShowsAttrs := by
  refine ⟨_, Decoded.toJson_obj _, ?_⟩
  rw [Fields.get?_mapWithKey, Fields.get?_insert, if_pos rfl]
  rfl

theorem showsAttrs_addAttrs (fields : Fields Json) : (addAttrs (.obj fields)).ShowsAttrs := by
  refine ⟨_, rfl, ?_⟩
  rw [Fields.get?_insert, if_pos rfl]

/-- A schema that declares the reserved key makes a shape that always shows it. -/
theorem FromSchema.showsAttrs (made : s.FromSchema true) {input : Json} {here : Position} {d : Decoded ω}
    (accepted : s.validate input here = .ok d) : d.toJson.ShowsAttrs := by
  have shown {label : Option String} {required optional : List (String × Shape ω)} {structural : Decoded ω}
      (validated : (ofProps label true required optional).validate input here = .ok structural) :
      ∃ fields, structural = setAttrs (.obj fields) := by
    obtain ⟨inner, parts, rfl⟩ := validate_ofProps_eq_ok_iff.mp validated
    obtain ⟨fields, rfl⟩ := obj_of_validate_ofParts parts
    exact ⟨fields, rfl⟩
  cases made with
  | schema =>
    obtain ⟨fields, rfl⟩ := shown accepted
    exact showsAttrs_setAttrs fields
  | ofClass className label attrs required optional construct =>
    -- The inner shape takes the `attrs` out again when it encodes; the class puts it back.
    obtain ⟨structural, product, validated, _, rfl⟩ := validate_ofClass_eq_ok accepted
    obtain ⟨fields, rfl⟩ := shown validated
    obtain ⟨out, encoded⟩ := @exists_encode_ofParts_obj _ label required optional
      (Fields.insert attrsKey (.obj []) fields)
    have putBack : handed (ofProps label true required optional) true (setAttrs (.obj fields)) =
        addAttrs (withoutAttrs (.obj out)) := by
      rw [← encoded]
      rfl
    show Json.ShowsAttrs (handed _ _ _)
    rw [putBack]
    exact showsAttrs_addAttrs _

/-- A shape that shows `attrs` leaves them out only where it accepts nothing without them. -/
theorem FromSchema.leavesAttrsOut_iff (made : s.FromSchema true) :
    s.LeavesAttrsOut ↔ ∀ fields d, Fields.get? attrsKey fields = none → s.decode (.obj fields) ≠ .ok d := by
  constructor
  · intro leaves fields d absent accepted
    exact (made.showsAttrs accepted).not_lacksAttrs (leaves fields d absent accepted)
  · intro never fields d absent accepted
    exact absurd accepted (never fields d absent)

end FromSchema

end Shape

theorem Schema.fromSchema {scope : Scope ω} {s : Schema} {shape : Shape ω} (elaborated : s.elaborate scope = .ok shape) :
    ∃ required optional, shape = .ofProps (some s.name) (declaresAttrs s.props) required optional := by
  obtain ⟨required, optional, _, _, same⟩ := assemble_elaborateProps elaborated
  exact ⟨required, optional, same⟩

/-- A slot that a definition fills tells what its schema declares, unless the definition gives the shape itself. -/
theorem Definition.fromSchema_of_entries {scope : Scope ω} {d : Definition ω} {entries : Fields (Slot ω)}
    (made : d.entries scope = .ok entries) {name : String} {shape : Shape ω} {attrs : Bool}
    (found : Fields.get? name entries = some (.resolved shape attrs)) :
    shape.FromSchema attrs ∨ attrs = false ∧ d = .shape name shape := by
  have listed := Fields.mem_of_get? found
  cases d with
  | schema s =>
    obtain ⟨own, elaborated, rfl⟩ := except_map_eq_ok_iff.mp made
    cases List.mem_singleton.mp listed
    obtain ⟨required, optional, rfl⟩ := Schema.fromSchema elaborated
    exact Or.inl (.schema ..)
  | ofClass c =>
    obtain ⟨inner, elaborated, rfl⟩ := except_map_eq_ok_iff.mp made
    obtain ⟨required, optional, rfl⟩ := Schema.fromSchema elaborated
    rcases List.mem_cons.mp listed with here | later
    · cases here
      exact Or.inl (.ofClass ..)
    · cases List.mem_singleton.mp later
      exact Or.inl (.schema ..)
  | shape own given =>
    cases made
    cases List.mem_singleton.mp listed
    exact Or.inr ⟨rfl, rfl⟩

namespace Registry

variable {r : Registry ω} {events : List (Event ω)} {name : String} {shape : Shape ω} {attrs : Bool}

/-- Where the shape of a registered name comes from. -/
theorem Reached.shape_origin (reached : r.Reached events) (found : r.slot? name = some (.resolved shape attrs)) :
    shape.FromSchema attrs ∨ attrs = false ∧ .registered (.shape name shape) ∈ events := by
  induction reached with
  | empty => cases found
  | declare other _ ih =>
    rw [slot?_declare] at found
    rcases Option.or_eq_some_iff.mp found with before | ⟨_, declared⟩
    · exact ih before
    · cases (Option.ite_none_right_eq_some.mp declared).2
  | @register r after events d _ done ih =>
    obtain ⟨entries, made, _, slots⟩ := register_eq_ok done
    rw [slots] at found
    rcases Option.or_eq_some_iff.mp found with here | ⟨_, before⟩
    · rcases Definition.fromSchema_of_entries made here with fromSchema | ⟨unset, rfl⟩
      · exact Or.inl fromSchema
      · exact Or.inr ⟨unset, List.mem_cons_self⟩
    · exact (ih before).imp_right fun ⟨unset, member⟩ => ⟨unset, List.mem_cons_of_mem _ member⟩
  | refuse _ failed ih =>
    rw [register_eq_error failed] at found
    exact ih found
  | factory tag make _ ih => exact (ih found).imp_right fun ⟨unset, member⟩ => ⟨unset, List.mem_cons_of_mem _ member⟩

theorem Reached.fromSchema_of_noted (reached : r.Reached events) (found : r.slot? name = some (.resolved shape true)) :
    shape.FromSchema true := by
  rcases reached.shape_origin found with made | ⟨unset, _⟩
  · exact made
  · cases unset

/-- A shape that was registered by itself stays where it was put, without the note. -/
theorem Reached.of_shape (reached : r.Reached events) (member : .registered (.shape name shape) ∈ events) :
    r.slot? name = some (.resolved shape false) := by
  induction reached with
  | empty => cases member
  | declare other _ ih => exact declare_keeps other (ih member)
  | @register r after events d _ done ih =>
    rcases List.mem_cons.mp member with here | earlier
    · cases here
      obtain ⟨_, rfl⟩ := registerShape_eq_ok done
      rw [slot?_setSlot, if_pos rfl]
    · exact register_keeps done (ih earlier)
  | refuse _ failed ih =>
    rw [register_eq_error failed]
    exact ih member
  | factory tag make _ ih =>
    rcases List.mem_cons.mp member with here | earlier
    · cases here
    · exact ih earlier

/-- What the note on a name says holds of what is decoded as the name. -/
structure TellsAttrs (r : Registry ω) (name : String) : Prop where
  shown : r.synthesizesAttrs name = true → ∀ input d, (Decoder.mk r).validate (.named name) input = .ok (.ok d) →
    d.toJson.ShowsAttrs
  hidden : r.synthesizesAttrs name = false → ∀ fields d, Fields.get? attrsKey fields = none →
    (Decoder.mk r).validate (.named name) (.obj fields) = .ok (.ok d) → d.toJson.LacksAttrs

section Found

variable (found : r.slot? name = some (.resolved shape attrs))

include found

theorem synthesizesAttrs_of_slot? : r.synthesizesAttrs name = attrs := by
  rw [synthesizesAttrs, found]

theorem validate_named_iff {input : Json} {d : Decoded ω} :
    (Decoder.mk r).validate (.named name) input = .ok (.ok d) ↔ shape.decode input = .ok d := by
  have resolved : r.resolveTarget (.named name) = .ok shape := resolve_eq_ok_iff.mpr ⟨attrs, found⟩
  exact Decoder.validate_eq_ok_iff (mapError_eq_ok_iff.mpr resolved)

/-- A flag that is set is right by its origin, so only one that is not set can be wrong. -/
theorem tellsAttrs_iff (fromSchema : attrs = true → shape.FromSchema true) :
    r.TellsAttrs name ↔ (attrs = false → shape.LeavesAttrsOut) := by
  constructor
  · rintro tells rfl fields d absent accepted
    exact tells.hidden (synthesizesAttrs_of_slot? found) fields d absent ((validate_named_iff found).mpr accepted)
  · intro leaves
    constructor
    · intro set input d accepted
      rw [synthesizesAttrs_of_slot? found] at set
      exact (fromSchema set).showsAttrs ((validate_named_iff found).mp accepted)
    · intro unset fields d absent accepted
      rw [synthesizesAttrs_of_slot? found] at unset
      exact leaves unset fields d absent ((validate_named_iff found).mp accepted)

end Found

end Registry

/-- Whether decoding as a name adds an empty `attrs` is told rightly of every name that a schema or a class was registered
under. Of a shape that was registered by itself it is told that it adds none, also where the shape was made from a
schema that declares `attrs`; this is right exactly where the shape brings none in. -/
theorem attrs_flag_right_iff {r : Registry ω} {events : List (Event ω)} (reached : r.Reached events) {name : String}
    (known : r.contains name = true) :
    (r.TellsAttrs name ↔ ∀ given, .registered (.shape name given) ∈ events → given.LeavesAttrsOut) ∧
    ∀ given, .registered (.shape name given) ∈ events →
      r.resolve name = .ok given ∧ r.synthesizesAttrs name = false ∧ (given.AddsNone → given.LeavesAttrsOut) ∧
      ∀ other, r.synthesizesAttrs other = true → r.resolve other = .ok given →
        (given.LeavesAttrsOut ↔
          ∀ fields d, Fields.get? attrsKey fields = none → given.decode (.obj fields) ≠ .ok d) := by
  obtain ⟨shape, attrs, found⟩ := Registry.exists_resolved_of_contains known
  have slot {given : Shape ω} (member : .registered (.shape name given) ∈ events) :
      shape = given ∧ attrs = false := by
    have same := found.symm.trans (reached.of_shape member)
    cases same
    exact ⟨rfl, rfl⟩
  constructor
  · rcases reached.shape_origin found with fromSchema | ⟨rfl, member⟩
    · rw [Registry.tellsAttrs_iff found fun set => set ▸ fromSchema]
      constructor
      · intro leaves given member
        obtain ⟨rfl, unset⟩ := slot member
        exact leaves unset
      · rintro _ rfl
        exact fromSchema.addsNone.leavesAttrsOut
    · rw [Registry.tellsAttrs_iff found fun set => absurd set Bool.false_ne_true]
      constructor
      · intro leaves given given'
        obtain ⟨rfl, _⟩ := slot given'
        exact leaves rfl
      · exact fun each _ => each shape member
  · intro given member
    obtain ⟨rfl, rfl⟩ := slot member
    refine ⟨Registry.resolve_eq_ok_iff.mpr ⟨false, found⟩, Registry.synthesizesAttrs_of_slot? found,
      Shape.AddsNone.leavesAttrsOut, fun other set resolved => ?_⟩
    obtain ⟨flag, foundOther⟩ := Registry.resolve_eq_ok_iff.mp resolved
    rw [Registry.synthesizesAttrs_of_slot? foundOther] at set
    subst set
    exact (reached.fromSchema_of_noted foundOther).leavesAttrsOut_iff

section Memo

def noteSchema : Schema := ⟨"Note", [⟨"name", .scalar .string, false⟩, ⟨attrsKey, .scalar .string, false⟩]⟩

/-- What the schema of notes stands for. -/
def noteShape : Shape Empty := .withAttrs (.strict (some "Note") [("name", .string)])

def memoEvents : List (Event Empty) := [.registered (.shape "Memo" noteShape), .registered (.schema noteSchema)]

def memoRegistry : Registry Empty :=
  ((Registry.empty.register (.schema noteSchema)).1.register (.shape "Memo" noteShape)).1

theorem memoRegistry_reached : memoRegistry.Reached memoEvents := .register (.register .empty rfl) rfl

theorem attrs_flag_right_iff_note : memoRegistry.TellsAttrs "Note" ∧ memoRegistry.synthesizesAttrs "Note" = true := by
  obtain ⟨tells, _⟩ := attrs_flag_right_iff memoRegistry_reached (show memoRegistry.contains "Note" = true from rfl)
  refine ⟨tells.mpr fun given member => ?_, rfl⟩
  rcases List.mem_cons.mp member with here | later
  · simp only [Event.registered.injEq, Definition.shape.injEq] at here
    exact absurd here.1 (by decide)
  · cases List.mem_singleton.mp later

/-- The same shape under a name of its own adds an `attrs` that is not told of. -/
theorem attrs_flag_wrong_memo : memoRegistry.Reached memoEvents ∧ memoRegistry.resolve "Note" = .ok noteShape ∧
    memoRegistry.resolve "Memo" = .ok noteShape ∧ memoRegistry.synthesizesAttrs "Memo" = false ∧
    (Decoder.mk memoRegistry).validate (.named "Memo") (.obj [("name", .str "x")]) =
      .ok (.ok (.obj [("name", .str "x"), (attrsKey, .obj [])])) ∧
    ¬memoRegistry.TellsAttrs "Memo" := by
  have decoded : (Decoder.mk memoRegistry).validate (.named "Memo") (.obj [("name", .str "x")]) =
      .ok (.ok (.obj [("name", .str "x"), (attrsKey, .obj [])])) := rfl
  refine ⟨memoRegistry_reached, rfl, rfl, rfl, decoded, fun tells => ?_⟩
  have absent := Decoded.lacksAttrs_obj_iff.mp (tells.hidden rfl _ _ rfl decoded)
  cases absent

end Memo

end Conform
