import Conform.Proofs.Shape.Composed
import Conform.Proofs.Shape.Repeated

namespace Conform.Shape

variable {ω : Type}

namespace Findings

variable {α β : Type}

/-- A whole is accepted from accepted parts alone, unless all that is wrong with it is a rejection without a
mismatch. -/
theorem heeds_iff {results : List (Except Failure α)} {build : List α → β} :
    (∀ out, finish build (collect results) = .ok out ↔ ∃ parts, results = parts.map .ok ∧ build parts = out) ↔
      ¬((∀ f, .error f ∈ results → f = .invalid []) ∧ .error (.invalid []) ∈ results) := by
  constructor
  · rintro heeds ⟨silent, forgotten⟩
    have accepted := finish_eq_ok_iff.mpr ⟨silent, @rfl _ (build (results.filterMap Except.toOption))⟩
    obtain ⟨parts, rfl, _⟩ := (heeds _).mp accepted
    obtain ⟨part, _, same⟩ := List.mem_map.mp forgotten
    cases same
  · rintro said out
    constructor
    · intro done
      have silent := (finish_eq_ok_iff.mp done).1
      have reports : ∀ result ∈ results, Reports result := by
        rintro result member found invalid rfl
        exact said ⟨silent, invalid ▸ member⟩
      exact (finish_collect_eq_ok_iff reports).mp done
    · rintro ⟨parts, rfl, rfl⟩
      rw [collect_map_ok]
      rfl

end Findings

section Items

variable {element : Shape ω} {items : List Json} {here : Position}

/-- An array is accepted exactly where every item is, and decoded item by item. -/
def HeedsItems (element : Shape ω) (items : List Json) (here : Position) : Prop :=
  ∀ d, (array element).validate (.arr items) here = .ok d ↔ ∃ parts, d = .arr parts ∧
    List.Forall₂ (fun entry part => element.validate entry.1 (here.index entry.2) = .ok part) items.zipIdx parts

/-- No item is rejected with a mismatch, but one is rejected without any. -/
def ForgetsItem (element : Shape ω) (items : List Json) (here : Position) : Prop :=
  (∀ entry ∈ items.zipIdx, Silent (element.validate entry.1 (here.index entry.2))) ∧
    ∃ entry ∈ items.zipIdx, element.validate entry.1 (here.index entry.2) = .error (.invalid [])

/-- An array heeds its items unless it forgets one that was rejected without a word. -/
theorem heedsItems_iff : HeedsItems element items here ↔ ¬ForgetsItem element items here := by
  have parts (d : Decoded ω) :
      (∃ parts, (items.zipIdx.map fun entry => element.validate entry.1 (here.index entry.2)) = parts.map .ok ∧
        .arr parts = d) ↔
      ∃ parts, d = .arr parts ∧
        List.Forall₂ (fun entry part => element.validate entry.1 (here.index entry.2) = .ok part) items.zipIdx parts := by
    refine exists_congr fun parts => ?_
    rw [and_comm, eq_comm, ← List.forall₂_eq_eq_eq, List.forall₂_map_left_iff, List.forall₂_map_right_iff]
  have silent : (∀ f, .error f ∈ (items.zipIdx.map fun entry => element.validate entry.1 (here.index entry.2)) →
      f = .invalid []) ↔ ∀ entry ∈ items.zipIdx, Silent (element.validate entry.1 (here.index entry.2)) := by
    simp only [List.mem_map, Silent, forall_exists_index, and_imp]
    exact ⟨fun each entry member f => each f entry member, fun each f entry member => each entry member f⟩
  simp only [HeedsItems, ForgetsItem, validate, validateItems_eq_collect, ← silent, ← parts]
  rw [← List.mem_map]
  exact Findings.heeds_iff

theorem Reporting.heedsItems (reporting : element.Reporting) : HeedsItems element items here := by
  refine heedsItems_iff.mpr ?_
  rintro ⟨_, entry, _, forgotten⟩
  exact reporting _ _ [] forgotten rfl

end Items

section Fields

variable {name : String} {lenient : Bool} {props : List (String × Shape ω)} {fields : Fields Json} {here : Position}

/-- A part is what the last declaration of its key makes of a field, or the field as it was read where the key is
not declared. -/
def DecodesField (here : Position) (props : List (String × Shape ω)) (field : String × Json)
    (part : String × Decoded ω) : Prop :=
  part.1 = field.1 ∧
    match Fields.last? field.1 props with
    | some s => s.validate field.2 (here.field field.1) = .ok part.2
    | none => part.2 = .ofJson field.2

/-- No declared key is missing, unless it may be. -/
def Complete (lenient : Bool) (props : List (String × Shape ω)) (fields : Fields Json) : Prop :=
  lenient = false → ∀ prop ∈ props, prop.1 ∈ Fields.keys fields

/-- An object is accepted exactly where no declared key is missing and each that is present is accepted by its
last declaration, and decoded field by field. -/
def HeedsFields (name : String) (lenient : Bool) (props : List (String × Shape ω)) (fields : Fields Json)
    (here : Position) : Prop :=
  ∀ d, (object name props lenient).validate (.obj fields) here = .ok d ↔ ∃ parts, d = .obj parts ∧
    Complete lenient props fields ∧ List.Forall₂ (DecodesField here props) fields parts

/-- Every key that is present is accepted by its last declaration. -/
def Admitted (lenient : Bool) (props : List (String × Shape ω)) (fields : Fields Json) (here : Position) : Prop :=
  Complete lenient props fields ∧ ∀ field ∈ fields, ∀ s, Fields.last? field.1 props = some s →
    ∃ d, s.validate field.2 (here.field field.1) = .ok d

theorem DecodesField.eq {field : String × Json} {part : String × Decoded ω} (decodes : DecodesField here props field part) :
    part = (field.1, decodedBy here props field.1 field.2) := by
  obtain ⟨key, d⟩ := part
  obtain ⟨rfl, decoded⟩ := decodes
  cases last : Fields.last? field.1 props with
  | some s =>
    simp only [last] at decoded
    have accepted : (s.validate field.2 (here.field field.1)).toOption = some d := by
      rw [decoded]
      rfl
    rw [decodedBy, taken, Fields.lastSome?_of_last? last accepted, Option.getD_some]
  | none =>
    simp only [last] at decoded
    rw [decodedBy_of_not_mem (Fields.last?_eq_none_iff.mp last), decoded]

/-- Fields are decoded one by one, each by the last declaration of its key. -/
theorem forall₂_decodesField_iff {parts : Fields (Decoded ω)} :
    List.Forall₂ (DecodesField here props) fields parts ↔
      (∀ field ∈ fields, ∀ s, Fields.last? field.1 props = some s →
        ∃ d, s.validate field.2 (here.field field.1) = .ok d) ∧
      parts = fields.mapWithKey (decodedBy here props) := by
  induction fields generalizing parts with
  | nil => simp [Fields.mapWithKey]
  | cons field rest ih =>
    constructor
    · rintro (_ | ⟨first, later⟩)
      obtain ⟨each, rfl⟩ := ih.mp later
      refine ⟨List.forall_mem_cons.mpr ⟨fun s last => ?_, each⟩, ?_⟩
      · have decoded := first.2
        simp only [last] at decoded
        exact ⟨_, decoded⟩
      · rw [first.eq]
        rfl
    · rintro ⟨each, rfl⟩
      obtain ⟨first, later⟩ := List.forall_mem_cons.mp each
      refine .cons ⟨rfl, ?_⟩ (ih.mpr ⟨later, rfl⟩)
      split
      · rename_i s last
        obtain ⟨d, accepted⟩ := first s last
        have part : DecodesField here props field (field.1, d) := ⟨rfl, by simpa only [last] using accepted⟩
        have same : d = decodedBy here props field.1 field.2 := (Prod.mk.inj part.eq).2
        rw [same] at accepted
        exact accepted
      · rename_i last
        exact decodedBy_of_not_mem (Fields.last?_eq_none_iff.mp last) field.2

/-- An object heeds its fields where all declarations pass exactly when the object is to be
admitted. -/
theorem heedsFields_iff (nodup : (Fields.keys fields).Nodup) : HeedsFields name lenient props fields here ↔
    ((∀ prop ∈ props, Passes lenient fields here prop) ↔ Admitted lenient props fields here) := by
  have admitted (d : Decoded ω) : (∃ parts, d = .obj parts ∧ Complete lenient props fields ∧
      List.Forall₂ (DecodesField here props) fields parts) ↔
      Admitted lenient props fields here ∧ d = .obj (fields.mapWithKey (decodedBy here props)) := by
    simp only [forall₂_decodesField_iff, Admitted]
    constructor
    · rintro ⟨_, rfl, complete, each, rfl⟩
      exact ⟨⟨complete, each⟩, rfl⟩
    · rintro ⟨⟨complete, each⟩, rfl⟩
      exact ⟨_, rfl, complete, each, rfl⟩
  simp only [HeedsFields, validate_object_obj_iff nodup, admitted]
  exact ⟨fun same => by simpa using same (.obj (fields.mapWithKey (decodedBy here props))), fun same d => by rw [same]⟩

/-- A declared key is rejected without a mismatch. -/
def Forgotten (fields : Fields Json) (here : Position) (prop : String × Shape ω) : Prop :=
  ∃ value, Fields.get? prop.1 fields = some value ∧ prop.2.validate value (here.field prop.1) = .error (.invalid [])

/-- A declared key accepts what it finds in an object. -/
def Takes (lenient : Bool) (fields : Fields Json) (here : Position) (prop : String × Shape ω) : Prop :=
  match Fields.get? prop.1 fields with
  | some value => ∃ d, prop.2.validate value (here.field prop.1) = .ok d
  | none => lenient = true

theorem takes_iff {prop : String × Shape ω} :
    Takes lenient fields here prop ↔ Passes lenient fields here prop ∧ ¬Forgotten fields here prop := by
  unfold Takes Passes Forgotten
  cases Fields.get? prop.1 fields with
  | none => simp
  | some value => cases result : prop.2.validate value (here.field prop.1) with
    | ok d => simp [result, Silent]
    | error f => simp [result, Silent]

theorem admitted_iff (nodup : (Fields.keys fields).Nodup) (distinct : (Fields.keys props).Nodup) :
    Admitted lenient props fields here ↔ ∀ prop ∈ props, Takes lenient fields here prop := by
  constructor
  · rintro ⟨complete, each⟩ prop member
    unfold Takes
    split
    · rename_i value present
      refine each (prop.1, value) (Fields.mem_of_get? present) prop.2 ?_
      rw [Fields.last?_eq_get? distinct]
      exact (Fields.get?_eq_some_iff distinct).mpr member
    · rename_i absent
      cases lenient with
      | true => rfl
      | false => exact absurd (complete rfl prop member) (Fields.get?_eq_none_iff.mp absent)
  · intro takes
    constructor
    · rintro rfl prop member
      by_contra absent
      have missing := takes prop member
      rw [Takes, Fields.get?_eq_none_iff.mpr absent] at missing
      cases missing
    · intro field member s last
      have taken := takes (field.1, s) (Fields.mem_of_last? last)
      rw [Takes, (Fields.get?_eq_some_iff nodup).mpr member] at taken
      exact taken

/-- Where no key is declared twice, all that can go wrong is a rejection without a mismatch. -/
theorem heedsFields_iff_of_nodup (nodup : (Fields.keys fields).Nodup) (distinct : (Fields.keys props).Nodup) :
    HeedsFields name lenient props fields here ↔
      ¬((∀ prop ∈ props, Passes lenient fields here prop) ∧ ∃ prop ∈ props, Forgotten fields here prop) := by
  rw [heedsFields_iff nodup, admitted_iff nodup distinct]
  simp only [takes_iff]
  constructor
  · rintro same ⟨passes, prop, member, forgotten⟩
    exact (same.mp passes prop member).2 forgotten
  · intro said
    constructor
    · exact fun passes prop member => ⟨passes prop member, fun forgotten => said ⟨passes, prop, member, forgotten⟩⟩
    · exact fun takes prop member => (takes prop member).1

end Fields

/-- Where a rejection of a part is heeded. An array forgets a rejection exactly where all that is wrong with it is
rejected without a mismatch; the item is then dropped. So does an object of which no key is declared twice; the field
then stays as it was read. If a key is declared twice, each declaration can reject what the last one accepts. An
intersection forgets none, and neither does an array or an object whose parts name a mismatch whenever they reject. -/
theorem rejection_heeded_iff :
    (∀ (element : Shape ω) (items : List Json) (here : Position),
      (HeedsItems element items here ↔ ¬ForgetsItem element items here) ∧
      (element.Reporting → HeedsItems element items here)) ∧
    (∀ (name : String) (lenient : Bool) (props : List (String × Shape ω)) (fields : Fields Json) (here : Position),
      (Fields.keys fields).Nodup →
      (HeedsFields name lenient props fields here ↔
        ((∀ prop ∈ props, Passes lenient fields here prop) ↔ Admitted lenient props fields here)) ∧
      ((Fields.keys props).Nodup →
        (HeedsFields name lenient props fields here ↔
          ¬((∀ prop ∈ props, Passes lenient fields here prop) ∧ ∃ prop ∈ props, Forgotten fields here prop)) ∧
        ((∀ prop ∈ props, prop.2.Reporting) → HeedsFields name lenient props fields here))) ∧
    ∀ (name : String) (left right : Shape ω) (input : Json) (here : Position),
      (∃ d, (intersection name left right).validate input here = .ok d) ↔
        (∃ a, left.validate input here = .ok a) ∧ ∃ b, right.validate input here = .ok b := by
  refine ⟨fun element items here => ⟨heedsItems_iff, Reporting.heedsItems⟩, ?_, ?_⟩
  · intro name lenient props fields here nodup
    refine ⟨heedsFields_iff nodup, fun distinct => ⟨heedsFields_iff_of_nodup nodup distinct, fun reporting => ?_⟩⟩
    refine (heedsFields_iff_of_nodup nodup distinct).mpr ?_
    rintro ⟨_, prop, member, value, _, forgotten⟩
    exact reporting prop member _ _ [] forgotten rfl
  · intro name left right input here
    simp only [validate_intersection_eq_ok_iff]
    constructor
    · rintro ⟨_, a, b, first, second, _⟩
      exact ⟨⟨a, first⟩, ⟨b, second⟩⟩
    · rintro ⟨⟨a, first⟩, ⟨b, second⟩⟩
      exact ⟨_, a, b, first, second, rfl⟩

section Quiet

/-- A validator that rejects everything without a word. -/
def quiet : Shape Empty := .custom "Quiet" (fun _ _ => .error (.invalid [])) Decoded.toJson fun _ => false

def quietFields : Fields Json := [("a", .num (.int 1)), ("b", .null)]

theorem quietFields_nodup : (Fields.keys quietFields).Nodup := by decide

/-- A field that says what is wrong is heeded beside one that does not. -/
theorem rejection_heeded_iff_quiet :
    HeedsItems (.number : Shape Empty) [.num (.int 1), .null] (.top "Array<number>") ∧
    HeedsFields "Row" false [("a", .string), ("b", quiet)] quietFields (.top "Row") := by
  obtain ⟨arrays, objects, _⟩ := @rejection_heeded_iff Empty
  have number : (.number : Shape Empty).Reporting := (Composed.scalar .number).reporting
  refine ⟨(arrays .number _ _).2 number, ?_⟩
  refine ((objects "Row" false _ _ _ quietFields_nodup).2 (by decide)).1.mpr ?_
  rintro ⟨passes, _⟩
  have silent := passes ("a", .string) List.mem_cons_self _ rfl
  cases silent

/-- An array drops the item that was rejected, and an object passes the field through. A key that is declared twice
rejects what its last declaration accepts. -/
theorem rejection_forgotten :
    (∀ input here, quiet.validate input here = .error (.invalid [])) ∧
    (array quiet).decode (.arr [.null]) = .ok (.arr []) ∧ ¬HeedsItems quiet [.null] (.top "Array<Quiet>") ∧
    (object "Box" [("a", quiet)] false).decode (.obj [("a", .null)]) = .ok (.obj [("a", .null)]) ∧
    ¬HeedsFields "Box" false [("a", quiet)] [("a", .null)] (.top "Box") ∧
    (number : Shape Empty).validate (.num (.int 1)) (.field (.top "Pair") "a") = .ok (.num (.int 1)) ∧
    (object "Pair" [("a", (string : Shape Empty)), ("a", number)] false).decode (.obj [("a", .num (.int 1))]) =
      .error (.single (.field (.top "Pair") "a") "string" (some (.num (.int 1)))) ∧
    ¬HeedsFields "Pair" false [("a", (string : Shape Empty)), ("a", number)] [("a", .num (.int 1))] (.top "Pair") := by
  refine ⟨fun _ _ => rfl, rfl, fun heeds => ?_, rfl, fun heeds => ?_, rfl, rfl, fun heeds => ?_⟩
  · obtain ⟨parts, _, each⟩ := (heeds (.arr [])).mp rfl
    cases each with
    | cons accepted _ => cases accepted
  · obtain ⟨parts, _, _, each⟩ := (heeds (.obj [("a", .null)])).mp rfl
    cases each with
    | cons decodes _ => cases decodes.2
  · have decodes : List.Forall₂ (DecodesField (.top "Pair") [("a", (string : Shape Empty)), ("a", number)])
        [("a", .num (.int 1))] [("a", .num (.int 1))] := .cons ⟨rfl, rfl⟩ .nil
    have complete : Complete false [("a", (string : Shape Empty)), ("a", number)] [("a", .num (.int 1))] := by
      intro _
      decide
    cases (heeds (.obj [("a", .num (.int 1))])).mpr ⟨_, rfl, complete, decodes⟩

end Quiet

end Conform.Shape
