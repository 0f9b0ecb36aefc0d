import Conform.Proofs.Decoding
import Conform.Proofs.Shape.Encode

namespace Conform

variable {ω : Type}

section LastOnly

variable {τ : Type}

/-- The declarations that no later one of the same name follows. -/
def lastOnly : List (Property τ) → List (Property τ)
  | [] => []
  | p :: rest =>
    if rest.any fun later => later.name = p.name then lastOnly rest else p :: lastOnly rest

theorem lastOnly_cons_of_mem {p later : Property τ} {rest : List (Property τ)} (member : later ∈ rest)
    (same : later.name = p.name) : lastOnly (p :: rest) = lastOnly rest := by
  rw [lastOnly, if_pos (List.any_eq_true.mpr ⟨later, member, by simp [same]⟩)]

theorem lastOnly_cons_of_not_mem {p : Property τ} {rest : List (Property τ)}
    (absent : ∀ later ∈ rest, later.name ≠ p.name) : lastOnly (p :: rest) = p :: lastOnly rest := by
  have none : (rest.any fun later => later.name = p.name) = false :=
    List.any_eq_false.mpr fun later member => by simp [absent later member]
  rw [lastOnly, none, if_neg Bool.false_ne_true]

theorem lastOnly_sublist (props : List (Property τ)) : (lastOnly props).Sublist props := by
  induction props with
  | nil => exact .slnil
  | cons p rest ih =>
    rw [lastOnly]
    split
    · exact ih.cons p
    · exact ih.cons_cons p

/-- Every name keeps a declaration. -/
theorem exists_mem_lastOnly {props : List (Property τ)} :
    ∀ p ∈ props, ∃ last ∈ lastOnly props, last.name = p.name := by
  induction props with
  | nil => exact fun _ member => nomatch member
  | cons first rest ih =>
    intro p member
    by_cases repeated : ∃ later ∈ rest, later.name = first.name
    · obtain ⟨later, inRest, same⟩ := repeated
      rw [lastOnly_cons_of_mem inRest same]
      rcases List.mem_cons.mp member with rfl | behind
      · exact same ▸ ih later inRest
      · exact ih p behind
    · rw [lastOnly_cons_of_not_mem fun later inRest same => repeated ⟨later, inRest, same⟩]
      rcases List.mem_cons.mp member with rfl | behind
      · exact ⟨p, List.mem_cons_self, rfl⟩
      · obtain ⟨last, kept, same⟩ := ih p behind
        exact ⟨last, List.mem_cons_of_mem _ kept, same⟩

end LastOnly

namespace Shape

/-- The declarations of the required or of the optional properties. -/
def side (optional : Bool) : List (Property (Shape ω)) → List (String × Shape ω)
  | [] => []
  | ⟨name, type, isOptional⟩ :: rest =>
    if isOptional = optional then (name, type) :: side optional rest else side optional rest

/-- The shape of an object with properties of which some may have one name. -/
def ofDeclared (label : Option String) (attrs : Bool) (decls : List (Property (Shape ω))) : Shape ω :=
  .ofProps label attrs (side false decls) (side true decls)

theorem mem_side {optional : Bool} {decls : List (Property (Shape ω))} {entry : String × Shape ω} :
    entry ∈ side optional decls ↔ ∃ p ∈ decls, p.optional = optional ∧ (p.name, p.type) = entry := by
  induction decls with
  | nil => simp [side]
  | cons p rest ih =>
    obtain ⟨name, type, isOptional⟩ := p
    by_cases same : isOptional = optional
    · simp only [side, same, if_true, List.mem_cons, ih, exists_eq_or_imp, true_and, eq_comm]
    · simp only [side, same, if_false, ih, List.mem_cons, exists_eq_or_imp, false_and, false_or]

section Validate

variable {fields : Fields Json} {here : Position} {d : Decoded ω}

/-- What both sides keep of a field. -/
def keptBy (here : Position) (required optional : List (String × Shape ω)) (key : String) (value : Json) : Decoded ω :=
  if optional.isEmpty then decodedBy here required key value
  else keepConstructed (decodedBy here required key value) (decodedBy here optional key value)

/-- A record is accepted where every declaration passes, and holds what is kept of each field. -/
theorem validate_ofParts_obj_iff (nodup : (Fields.keys fields).Nodup) {label : Option String}
    {required optional : List (String × Shape ω)} :
    (ofParts label required optional).validate (.obj fields) here = .ok d ↔
      ((∀ prop ∈ required, Passes false fields here prop) ∧ ∀ prop ∈ optional, Passes true fields here prop) ∧
        d = .obj (fields.mapWithKey (keptBy here required optional)) := by
  cases required with
  | nil =>
    have same : keptBy here [] optional = decodedBy here optional := by
      funext key value
      cases optional with
      | nil => rfl
      | cons => exact keepConstructed_ofJson_left value _
    rw [ofParts, lenient, validate_object_obj_iff nodup, same]
    simp
  | cons first rest => cases optional with
    | nil =>
      have same : keptBy here (first :: rest) [] = decodedBy here (first :: rest) := rfl
      rw [ofParts_strict label (List.cons_ne_nil _ _), strict, validate_object_obj_iff nodup, same]
      simp
    | cons other others =>
      have merged : merge (.obj (fields.mapWithKey (decodedBy here (first :: rest))))
          (.obj (fields.mapWithKey (decodedBy here (other :: others)))) =
            .obj (fields.mapWithKey (keptBy here (first :: rest) (other :: others))) :=
        merge_mapWithKey nodup _ _
      rw [ofParts_both label (List.cons_ne_nil _ _) (List.cons_ne_nil _ _), both, validate_intersection_eq_ok_iff]
      simp only [strict, lenient, validate_object_obj_iff nodup]
      constructor
      · rintro ⟨_, _, ⟨strictly, rfl⟩, ⟨leniently, rfl⟩, rfl⟩
        exact ⟨⟨strictly, leniently⟩, merged⟩
      · rintro ⟨⟨strictly, leniently⟩, rfl⟩
        exact ⟨_, _, ⟨strictly, rfl⟩, ⟨leniently, rfl⟩, merged⟩

theorem validate_ofProps_eq_ok_iff {label : Option String} {attrs : Bool} {required optional : List (String × Shape ω)}
    {input : Json} : (ofProps label attrs required optional).validate input here = .ok d ↔
      ∃ inner, (ofParts label required optional).validate input here = .ok inner ∧
        d = if attrs then setAttrs inner else inner := by
  refine ⟨validate_ofProps_eq_ok, ?_⟩
  rintro ⟨inner, validated, rfl⟩
  cases attrs with
  | false => exact validated
  | true =>
    rw [ofProps, if_pos rfl, validate, validated]
    rfl

theorem obj_of_validate_ofProps {label : Option String} {attrs : Bool} {required optional : List (String × Shape ω)}
    {input : Json} (accepted : (ofProps label attrs required optional).validate input here = .ok d) :
    ∃ fields, input = .obj fields := by
  obtain ⟨inner, validated, _⟩ := validate_ofProps_eq_ok accepted
  cases input with
  | obj fields => exact ⟨fields, rfl⟩
  | _ => cases required with
    | nil => cases validated
    | cons => cases optional <;> cases validated

end Validate

section Declared

variable {label : Option String} {attrs : Bool} {decls : List (Property (Shape ω))} {fields : Fields Json}
  {here : Position} {d : Decoded ω}

/-- No declaration finds anything wrong with an object. -/
def Admits (decls : List (Property (Shape ω))) (fields : Fields Json) (here : Position) : Prop :=
  ∀ p ∈ decls, Passes p.optional fields here (p.name, p.type)

/-- How declarations decode a field, and how they encode what a field was decoded to. -/
def keptOf (decls : List (Property (Shape ω))) (here : Position) : String → Json → Decoded ω :=
  keptBy here (side false decls) (side true decls)

def writtenOf (decls : List (Property (Shape ω))) : String → Decoded ω → Json :=
  encodeParts (side false decls) (side true decls)

/-- What an accepted object is decoded to. -/
def partsOf (attrs : Bool) (decls : List (Property (Shape ω))) (fields : Fields Json) (here : Position) :
    Fields (Decoded ω) :=
  TypeTree.putAttrs attrs (Fields.mapWithKey (keptOf decls here) fields)

theorem validate_ofDeclared_iff (nodup : (Fields.keys fields).Nodup) :
    (ofDeclared label attrs decls).validate (.obj fields) here = .ok d ↔
      Admits decls fields here ∧ d = .obj (partsOf attrs decls fields here) := by
  have bySide : ((∀ prop ∈ side false decls, Passes false fields here prop) ∧
      ∀ prop ∈ side true decls, Passes true fields here prop) ↔ Admits decls fields here := by
    constructor
    · rintro ⟨required, optional⟩ p member
      cases kind : p.optional with
      | false => exact required _ (mem_side.mpr ⟨p, member, kind, rfl⟩)
      | true => exact optional _ (mem_side.mpr ⟨p, member, kind, rfl⟩)
    · intro admits
      constructor <;> intro prop inSide <;> obtain ⟨p, member, kind, rfl⟩ := mem_side.mp inSide
      · exact kind ▸ admits p member
      · exact kind ▸ admits p member
  rw [ofDeclared, validate_ofProps_eq_ok_iff]
  simp only [validate_ofParts_obj_iff nodup, bySide]
  constructor
  · rintro ⟨_, ⟨admits, rfl⟩, rfl⟩
    exact ⟨admits, by cases attrs <;> rfl⟩
  · rintro ⟨admits, rfl⟩
    exact ⟨_, ⟨admits, rfl⟩, by cases attrs <;> rfl⟩

theorem admits_iff_exists_ok (nodup : (Fields.keys fields).Nodup) (label : Option String) (attrs : Bool) :
    Admits decls fields here ↔ ∃ d, (ofDeclared label attrs decls).validate (.obj fields) here = .ok d := by
  simp only [validate_ofDeclared_iff nodup, exists_and_left, exists_eq, and_true]

theorem not_mem_keys_side {key : String} (undeclared : ∀ p ∈ decls, p.name ≠ key) (optional : Bool) :
    key ∉ Fields.keys (side optional decls) := by
  intro known
  obtain ⟨entry, inSide, rfl⟩ := List.mem_map.mp known
  obtain ⟨p, member, _, rfl⟩ := mem_side.mp inSide
  exact undeclared p member rfl

theorem decodedBy_of_not_mem {props : List (String × Shape ω)} {key : String} (absent : key ∉ Fields.keys props)
    (value : Json) : decodedBy here props key value = .ofJson value := by
  rw [decodedBy, taken, Fields.lastSome?_of_not_mem absent]
  rfl

/-- A field that is not declared is decoded and encoded as it is. -/
theorem keptOf_of_not_mem {key : String} (undeclared : ∀ p ∈ decls, p.name ≠ key) (value : Json) :
    keptOf decls here key value = .ofJson value := by
  have absent := not_mem_keys_side undeclared
  rw [keptOf, keptBy, decodedBy_of_not_mem (absent false), decodedBy_of_not_mem (absent true),
    keepConstructed_ofJson_left, ite_self]

/-- A field is kept as it was read or as one of its declarations decoded it. -/
theorem keptOf_origin (decls : List (Property (Shape ω))) (here : Position) (key : String) (value : Json) :
    keptOf decls here key value = .ofJson value ∨
      ∃ p ∈ decls, p.name = key ∧ p.type.validate value (here.field key) = .ok (keptOf decls here key value) := by
  have bySide (optional : Bool) : decodedBy here (side optional decls) key value = .ofJson value ∨
      ∃ p ∈ decls, p.name = key ∧ p.type.validate value (here.field key) =
        .ok (decodedBy here (side optional decls) key value) := by
    refine (decodedBy_origin here (side optional decls) key value).imp_right ?_
    rintro ⟨s, listed, validated⟩
    obtain ⟨p, member, _, same⟩ := mem_side.mp listed
    cases same
    exact ⟨p, member, rfl, validated⟩
  rw [keptOf, keptBy]
  split
  · exact bySide false
  · rw [keepConstructed]
    split
    · exact bySide false
    · exact bySide true

theorem writtenOf_of_not_mem {key : String} (undeclared : ∀ p ∈ decls, p.name ≠ key) (d : Decoded ω) :
    writtenOf decls key d = d.toJson :=
  encodeParts_of_not_mem (not_mem_keys_side undeclared false) (not_mem_keys_side undeclared true)

end Declared

section Agree

variable {label label' : Option String} {attrs : Bool} {decls others : List (Property (Shape ω))}
  {fields : Fields Json} {here : Position}

/-- Two shapes agree on an input where they accept it alike, as the same value, and write that value alike. -/
structure Agree (s t : Shape ω) (input : Json) (here : Position) : Prop where
  decodes : ∀ d, s.validate input here = .ok d ↔ t.validate input here = .ok d
  encodes : ∀ d, s.validate input here = .ok d → (s.encode d).same (t.encode d) = true

/-- Two lists of declarations keep and write a field alike. -/
def SameField (decls others : List (Property (Shape ω))) (here : Position) (key : String) (value : Json) : Prop :=
  keptOf decls here key value = keptOf others here key value ∧
    (writtenOf decls key (keptOf decls here key value)).same (writtenOf others key (keptOf decls here key value)) = true

theorem sameField_of_not_mem {key : String} (undeclared : ∀ p ∈ decls, p.name ≠ key)
    (undeclared' : ∀ p ∈ others, p.name ≠ key) (value : Json) : SameField decls others here key value := by
  rw [SameField, keptOf_of_not_mem undeclared, keptOf_of_not_mem undeclared', writtenOf_of_not_mem undeclared,
    writtenOf_of_not_mem undeclared']
  exact ⟨rfl, Json.same_refl _⟩

/-- A part that is not reserved is what is kept of its field. -/
theorem get?_partsOf {key : String} (kept : ¬(attrs = true ∧ key = attrsKey)) :
    Fields.get? key (partsOf attrs decls fields here) = (Fields.get? key fields).map (keptOf decls here key) :=
  TypeTree.get?_putAttrs_mapWithKey attrs (keptOf decls here) fields kept

/-- Two records write the same exactly when they write each part the same. -/
theorem encode_partsOf_same_iff (nodup : (Fields.keys fields).Nodup) :
    ((ofDeclared label attrs decls).encode (.obj (partsOf attrs decls fields here))).same
        ((ofDeclared label' attrs others).encode (.obj (partsOf attrs decls fields here))) = true ↔
      ∀ key value, ¬(attrs = true ∧ key = attrsKey) → Fields.get? key fields = some value →
        (writtenOf decls key (keptOf decls here key value)).same
          (writtenOf others key (keptOf decls here key value)) = true := by
  have nodupParts := TypeTree.nodup_keys_putAttrs (Fields.nodup_keys_mapWithKey nodup (keptOf decls here)) attrs
  obtain ⟨out, encoded, distinct, written⟩ :=
    @encode_ofProps_obj ω (side false decls) (side true decls) _ nodupParts label attrs
  obtain ⟨out', encoded', distinct', written'⟩ :=
    @encode_ofProps_obj ω (side false others) (side true others) _ nodupParts label' attrs
  rw [ofDeclared, ofDeclared, partsOf, encoded, encoded', Json.same_iff, Json.normal_obj_eq_iff distinct distinct']
  refine forall_congr' fun key => ?_
  rw [written, written', ← partsOf]
  by_cases dropped : attrs = true ∧ key = attrsKey
  · simp [dropped]
  · rw [if_neg dropped, if_neg dropped, get?_partsOf dropped]
    cases Fields.get? key fields with
    | none => simp
    | some value =>
      simp only [Option.map_some, Option.some.injEq, Json.same_iff, dropped, not_false_eq_true, true_imp_iff,
        forall_eq']
      rfl

/-- Two lists of declarations agree on an object where one admits it exactly if the other does, and each
field of it that is admitted is kept and written alike. -/
theorem agree_ofDeclared_iff (unreserved : ∀ p ∈ decls, p.name ≠ attrsKey)
    (unreserved' : ∀ p ∈ others, p.name ≠ attrsKey) (nodup : (Fields.keys fields).Nodup) :
    Agree (ofDeclared label attrs decls) (ofDeclared label' attrs others) (.obj fields) here ↔
      (Admits decls fields here ↔ Admits others fields here) ∧ (Admits decls fields here →
        ∀ key value, Fields.get? key fields = some value → SameField decls others here key value) := by
  constructor
  · intro agree
    have accepts : Admits decls fields here ↔ Admits others fields here := by
      rw [admits_iff_exists_ok nodup label attrs, admits_iff_exists_ok nodup label' attrs]
      exact exists_congr agree.decodes
    refine ⟨accepts, fun admits key value found => ?_⟩
    by_cases dropped : attrs = true ∧ key = attrsKey
    · rw [dropped.2]
      exact sameField_of_not_mem unreserved unreserved' value
    · have accepted : (ofDeclared label attrs decls).validate (.obj fields) here =
          .ok (.obj (partsOf attrs decls fields here)) := (validate_ofDeclared_iff nodup).mpr ⟨admits, rfl⟩
      obtain ⟨_, equal⟩ := (validate_ofDeclared_iff nodup).mp ((agree.decodes _).mp accepted)
      have sameParts := congrArg (Fields.get? key) (Decoded.obj.inj equal)
      rw [get?_partsOf dropped, get?_partsOf dropped, found] at sameParts
      have written := (encode_partsOf_same_iff nodup).mp (agree.encodes _ accepted)
      exact ⟨Option.some.inj sameParts, written key value dropped found⟩
  · rintro ⟨accepts, each⟩
    have sameParts : Admits decls fields here → partsOf attrs decls fields here = partsOf attrs others fields here := by
      intro admits
      refine congrArg (TypeTree.putAttrs attrs) (Fields.mapWithKey_congr fun entry member => ?_)
      exact (each admits entry.1 entry.2 ((Fields.get?_eq_some_iff nodup).mpr member)).1
    refine ⟨fun d => ?_, fun d accepted => ?_⟩
    · rw [validate_ofDeclared_iff nodup, validate_ofDeclared_iff nodup, ← accepts]
      exact and_congr_right fun admits => by rw [sameParts admits]
    · obtain ⟨admits, rfl⟩ := (validate_ofDeclared_iff nodup).mp accepted
      exact (encode_partsOf_same_iff nodup).mpr fun key value _ found => (each admits key value found).2

/-- What is not an object is rejected whatever is declared. -/
theorem agree_ofDeclared_of_ne_obj {input : Json} (other : ∀ fields, input ≠ .obj fields) :
    Agree (ofDeclared label attrs decls) (ofDeclared label' attrs others) input here where
  decodes d := by
    constructor <;> intro accepted <;> obtain ⟨fields, rfl⟩ := obj_of_validate_ofProps accepted <;>
      exact absurd rfl (other fields)
  encodes d accepted := by
    obtain ⟨fields, rfl⟩ := obj_of_validate_ofProps accepted
    exact absurd rfl (other fields)

end Agree

section LastOnly

variable {decls : List (Property (Shape ω))} {fields : Fields Json} {here : Position}

/-- Fewer declarations admit no less. -/
theorem Admits.lastOnly (admits : Admits decls fields here) : Admits (lastOnly decls) fields here :=
  fun p member => admits p ((lastOnly_sublist decls).subset member)

/-- No name is declared both as required and as optional. -/
def Unsplit (decls : List (Property (Shape ω))) : Prop :=
  ∀ p ∈ decls, ∀ q ∈ decls, p.name = q.name → p.optional = q.optional

theorem side_sublist (optional : Bool) {part : List (Property (Shape ω))} (within : part.Sublist decls) :
    (side optional part).Sublist (side optional decls) := by
  induction within with
  | slnil => exact .slnil
  | cons p _ ih =>
    rw [side]
    split
    · exact ih.cons _
    · exact ih
  | cons_cons p _ ih =>
    rw [side, side]
    split
    · exact ih.cons_cons _
    · exact ih

/-- Where the declarations of a key are all of one side, that side has the same last one. -/
theorem last?_side_lastOnly (unsplit : Unsplit decls) (optional : Bool) (key : String) :
    Fields.last? key (side optional (lastOnly decls)) = Fields.last? key (side optional decls) := by
  induction decls with
  | nil => rfl
  | cons p rest ih =>
    obtain ⟨name, type, isOptional⟩ := p
    have unsplitRest : Unsplit rest := fun p inRest q inRest' =>
      unsplit p (List.mem_cons_of_mem _ inRest) q (List.mem_cons_of_mem _ inRest')
    by_cases repeated : ∃ later ∈ rest, later.name = name
    · obtain ⟨later, inRest, same⟩ := repeated
      rw [lastOnly_cons_of_mem inRest same, ih unsplitRest, side]
      split
      · rename_i here
        -- The later declaration of the name is on the same side, where it hides this one.
        have alike : later.optional = optional :=
          (unsplit later (List.mem_cons_of_mem _ inRest) _ List.mem_cons_self same).trans here
        have hidden : Fields.last? name (side optional rest) ≠ none := by
          rw [Ne, Fields.last?_eq_none_iff, not_not]
          exact same ▸ List.mem_map_of_mem (mem_side.mpr ⟨later, inRest, alike, rfl⟩)
        rw [Fields.last?]
        by_cases asked : name = key
        · subst asked
          obtain ⟨value, found⟩ := Option.ne_none_iff_exists'.mp hidden
          rw [found, Option.some_or]
        · rw [if_neg asked, Option.or_none]
      · rfl
    · rw [lastOnly_cons_of_not_mem fun later inRest same => repeated ⟨later, inRest, same⟩, side, side]
      split
      · rw [Fields.last?, Fields.last?, ih unsplitRest]
      · exact ih unsplitRest

theorem side_lastOnly_eq_nil_iff (unsplit : Unsplit decls) (optional : Bool) :
    side optional (lastOnly decls) = [] ↔ side optional decls = [] := by
  have empty (part : List (String × Shape ω)) : part = [] ↔ ∀ key, Fields.last? key part = none := by
    simp only [Fields.last?_eq_none_iff, Fields.keys, ← List.eq_nil_iff_forall_not_mem, List.map_eq_nil_iff]
  simp only [empty, last?_side_lastOnly unsplit]

/-- Where every declaration of a key accepts the value, the last one decodes it. -/
theorem decodedBy_eq_last? {props : List (String × Shape ω)} {key : String} {value : Json}
    (accepted : ∀ s, (key, s) ∈ props → ∃ d, s.validate value (here.field key) = .ok d) :
    decodedBy here props key value = ((Fields.last? key props).bind fun s =>
      (s.validate value (here.field key)).toOption).getD (.ofJson value) := by
  rw [decodedBy, taken, Fields.lastSome?_eq_bind]
  intro s member
  obtain ⟨d, ok⟩ := accepted s member
  rw [ok]
  rfl

/-- A name that is declared on one side is kept and written as the last declaration does. -/
theorem sameField_lastOnly (unsplit : Unsplit decls) {key : String} {value : Json}
    (accepted : ∀ p ∈ decls, p.name = key → ∃ d, p.type.validate value (here.field key) = .ok d) :
    SameField decls (lastOnly decls) here key value := by
  have accepts (optional : Bool) : ∀ s, (key, s) ∈ side optional decls →
      ∃ d, s.validate value (here.field key) = .ok d := by
    intro s member
    obtain ⟨p, declared, _, equal⟩ := mem_side.mp member
    obtain ⟨same, rfl⟩ := Prod.mk.inj equal
    exact accepted p declared same
  have decoded (optional : Bool) :
      decodedBy here (side optional decls) key value = decodedBy here (side optional (lastOnly decls)) key value := by
    have within := (side_sublist optional (lastOnly_sublist decls)).subset
    rw [decodedBy_eq_last? (accepts optional), decodedBy_eq_last? fun s member => accepts optional s (within member),
      last?_side_lastOnly unsplit]
  have kept : keptOf decls here key value = keptOf (lastOnly decls) here key value := by
    have empty : (side true (lastOnly decls)).isEmpty = (side true decls).isEmpty := by
      rw [Bool.eq_iff_iff, List.isEmpty_iff, List.isEmpty_iff, side_lastOnly_eq_nil_iff unsplit]
    rw [keptOf, keptOf, keptBy, keptBy, decoded, decoded, empty]
  refine ⟨kept, ?_⟩
  simp only [Json.same_iff, writtenOf, encodeParts_normal, encodeBeside, encodeField, encodeProp_eq_last?,
    last?_side_lastOnly unsplit]

/-- Where rejections say something a present field that passes was accepted. -/
theorem Passes.exists_ok {lenient : Bool} {prop : String × Shape ω} (passes : Passes lenient fields here prop)
    (reporting : prop.2.Reporting) {value : Json} (found : Fields.get? prop.1 fields = some value) :
    ∃ d, prop.2.validate value (here.field prop.1) = .ok d := by
  rw [Passes, found] at passes
  cases result : prop.2.validate value (here.field prop.1) with
  | ok d => exact ⟨d, rfl⟩
  | error f => exact absurd rfl (reporting _ _ [] (result.trans (congrArg Except.error (passes f result))))

/-- Where all declarations of a key accept its value the last one alone keeps the same of it. -/
theorem Admits.sameField (admits : Admits decls fields here) (unsplit : Unsplit decls)
    (reporting : ∀ p ∈ decls, p.type.Reporting) {key : String} {value : Json}
    (found : Fields.get? key fields = some value) : SameField decls (Conform.lastOnly decls) here key value := by
  refine sameField_lastOnly unsplit fun p member same => ?_
  subst same
  exact (admits p member).exists_ok (reporting p member) found

/-- The last declarations decide alone about an input: it is accepted wherever they accept it, and its fields
are kept and written as by them. -/
structure LastDecides (decls : List (Property (Shape ω))) (fields : Fields Json) (here : Position) : Prop where
  admits : Admits (Conform.lastOnly decls) fields here → Admits decls fields here
  same : Admits decls fields here →
    ∀ key value, Fields.get? key fields = some value → SameField decls (Conform.lastOnly decls) here key value

/-- A record agrees with its last declarations exactly where these decide. -/
theorem agree_lastOnly_iff (unreserved : ∀ p ∈ decls, p.name ≠ attrsKey) {input : Json} (distinct : input.Distinct)
    (label label' : Option String) (attrs : Bool) :
    Agree (ofDeclared label attrs decls) (ofDeclared label' attrs (lastOnly decls)) input here ↔
      ∀ fields, input = .obj fields → LastDecides decls fields here := by
  have unreserved' : ∀ p ∈ lastOnly decls, p.name ≠ attrsKey :=
    fun p member => unreserved p ((lastOnly_sublist decls).subset member)
  constructor
  · rintro agree fields rfl
    have nodup := (Json.distinct_obj_iff.mp distinct).1
    obtain ⟨accepts, same⟩ := (agree_ofDeclared_iff unreserved unreserved' nodup).mp agree
    exact ⟨accepts.mpr, same⟩
  · intro decides
    cases input with
    | obj fields =>
      have nodup := (Json.distinct_obj_iff.mp distinct).1
      obtain ⟨admits, same⟩ := decides fields rfl
      exact (agree_ofDeclared_iff unreserved unreserved' nodup).mpr ⟨⟨Admits.lastOnly, admits⟩, same⟩
    | _ => exact agree_ofDeclared_of_ne_obj fun _ => nofun

/-- Where no name is on both sides, all that can go wrong is an earlier declaration that rejects. -/
theorem lastDecides_iff (unsplit : Unsplit decls) (reporting : ∀ p ∈ decls, p.type.Reporting) :
    LastDecides decls fields here ↔ (Admits (lastOnly decls) fields here → Admits decls fields here) :=
  ⟨LastDecides.admits, fun admits => ⟨admits, fun accepted _ _ => accepted.sameField unsplit reporting⟩⟩

end LastOnly

end Shape

end Conform
