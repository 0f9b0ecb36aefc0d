import Conform.Proofs.Leaf
import Conform.Proofs.Shape.Parts

namespace Conform.Shape

variable {ω : Type}

/-- The result of a validation without the places of its mismatches. -/
def outcome {α : Type} : Except Failure α → Except (Option DecodeError) α
  | .ok d => .ok d
  | .error (.invalid _) => .error none
  | .error (.fatal e) => .error (some e)

section Outcome

variable {α β : Type}

theorem outcome_eq_ok_iff {result : Except Failure α} {d : α} : outcome result = .ok d ↔ result = .ok d := by
  cases result with
  | ok other => simp [outcome]
  | error f => cases f <;> simp [outcome]

theorem outcome_eq_invalid_iff {result : Except Failure α} :
    outcome result = .error none ↔ ∃ found, result = .error (.invalid found) := by
  cases result with
  | ok other => simp [outcome]
  | error f => cases f <;> simp [outcome]

theorem outcome_eq_fatal_iff {result : Except Failure α} {e : DecodeError} :
    outcome result = .error (some e) ↔ result = .error (.fatal e) := by
  cases result with
  | ok other => simp [outcome]
  | error f => cases f <;> simp [outcome]

/-- Two results end alike: with the same value, with mismatches, or with the same fatal error. -/
theorem outcome_eq_iff {result other : Except Failure α} : outcome result = outcome other ↔
    (∃ d, result = .ok d ∧ other = .ok d) ∨
      (∃ found more, result = .error (.invalid found) ∧ other = .error (.invalid more)) ∨
        ∃ e, result = .error (.fatal e) ∧ other = .error (.fatal e) := by
  constructor
  · intro alike
    cases result with
    | ok d => exact Or.inl ⟨d, rfl, outcome_eq_ok_iff.mp alike.symm⟩
    | error f => cases f with
      | invalid found =>
        obtain ⟨more, same⟩ := outcome_eq_invalid_iff.mp alike.symm
        exact Or.inr (Or.inl ⟨found, more, rfl, same⟩)
      | fatal e => exact Or.inr (Or.inr ⟨e, rfl, outcome_eq_fatal_iff.mp alike.symm⟩)
  · rintro (⟨d, rfl, rfl⟩ | ⟨found, more, rfl, rfl⟩ | ⟨e, rfl, rfl⟩) <;> rfl

theorem outcome_map {f : α → β} {result other : Except Failure α} (alike : outcome result = outcome other) :
    outcome (result.map f) = outcome (other.map f) := by
  rcases outcome_eq_iff.mp alike with ⟨d, rfl, rfl⟩ | ⟨found, more, rfl, rfl⟩ | ⟨e, rfl, rfl⟩ <;> rfl

/-- What is gathered from parts that end alike: the same fatal error, or the same values and mismatches on
both sides or on neither. -/
theorem Findings.collect_alike {results others : List (Except Failure α)}
    (alike : List.Forall₂ (fun a b => outcome a = outcome b) results others)
    (reports : ∀ result ∈ results, Reports result) (reports' : ∀ result ∈ others, Reports result) :
    (∃ e, collect results = .error e ∧ collect others = .error e) ∨
      ∃ r r', collect results = .ok r ∧ collect others = .ok r' ∧ r.accepted = r'.accepted ∧
        r.mismatches.isEmpty = r'.mismatches.isEmpty := by
  induction alike with
  | nil => exact Or.inr ⟨none, none, rfl, rfl, rfl, rfl⟩
  | @cons result other results others first _ ih =>
    obtain ⟨here, later⟩ := List.forall_mem_cons.mp reports
    obtain ⟨here', later'⟩ := List.forall_mem_cons.mp reports'
    simp only [collect_cons]
    rcases outcome_eq_iff.mp first with ⟨d, rfl, rfl⟩ | ⟨found, more, rfl, rfl⟩ | ⟨e, rfl, rfl⟩
    · rcases ih later later' with ⟨e, left, right⟩ | ⟨r, r', left, right, accepted, mismatches⟩
      · exact Or.inl ⟨e, by rw [left]; rfl, by rw [right]; rfl⟩
      · exact Or.inr ⟨⟨d :: r.accepted, r.mismatches⟩, ⟨d :: r'.accepted, r'.mismatches⟩, by rw [left]; rfl,
          by rw [right]; rfl, congrArg (d :: ·) accepted, mismatches⟩
    · rcases ih later later' with ⟨e, left, right⟩ | ⟨r, r', left, right, accepted, mismatches⟩
      · exact Or.inl ⟨e, by rw [left]; rfl, by rw [right]; rfl⟩
      · have some : found ++ r.mismatches ≠ [] := List.append_ne_nil_of_left_ne_nil (here found rfl) _
        have some' : more ++ r'.mismatches ≠ [] := List.append_ne_nil_of_left_ne_nil (here' more rfl) _
        refine Or.inr ⟨⟨r.accepted, found ++ r.mismatches⟩, ⟨r'.accepted, more ++ r'.mismatches⟩,
          by rw [left]; rfl, by rw [right]; rfl, accepted, ?_⟩
        rw [List.isEmpty_eq_false_iff.mpr some, List.isEmpty_eq_false_iff.mpr some']
    · exact Or.inl ⟨e, rfl, rfl⟩

/-- Parts with the same outcomes give a whole with the same outcome. -/
theorem Findings.outcome_finish_collect {results others : List (Except Failure α)} {build : List α → β}
    (alike : List.Forall₂ (fun a b => outcome a = outcome b) results others)
    (reports : ∀ result ∈ results, Reports result) (reports' : ∀ result ∈ others, Reports result) :
    outcome (finish build (collect results)) = outcome (finish build (collect others)) := by
  rcases collect_alike alike reports reports' with ⟨e, left, right⟩ | ⟨r, r', left, right, accepted, mismatches⟩
  · rw [left, right]
  · rw [left, right, finish, finish, accepted, mismatches]
    split <;> rfl

end Outcome

/-- A validation by the shape ends alike wherever the input stands. -/
def Uniform (s : Shape ω) : Prop :=
  ∀ (input : Json) (here there : Position), outcome (s.validate input here) = outcome (s.validate input there)

/-- What a uniform shape accepts in one place it accepts in every place, as the same value. -/
theorem Uniform.validate_eq_ok {s : Shape ω} (uniform : s.Uniform) {input : Json} {here : Position} {d : Decoded ω}
    (accepted : s.validate input here = .ok d) (there : Position) : s.validate input there = .ok d := by
  have alike := uniform input there here
  rw [accepted] at alike
  exact outcome_eq_ok_iff.mp alike

/-- A shape that takes an input as it is, or rejects it, wherever it stands. -/
structure Keeps (s : Shape ω) : Prop where
  decodes : ∀ input, (∀ here, s.validate input here = .ok (.ofJson input)) ∨
    (∀ here, ∃ found, found ≠ [] ∧ s.validate input here = .error (.invalid found)) ∨
      ∃ e, ∀ here, s.validate input here = .error (.fatal e)
  encodes : ∀ d, s.encode d = d.toJson

theorem Keeps.reporting {s : Shape ω} (keeps : s.Keeps) : s.Reporting := by
  intro input here found rejected
  rcases keeps.decodes input with always | never | ⟨e, fails⟩
  · rw [always here] at rejected
    cases rejected
  · obtain ⟨more, nonempty, same⟩ := never here
    cases same.symm.trans rejected
    exact nonempty
  · rw [fails here] at rejected
    cases rejected

theorem Leaf.keeps {s : Shape ω} (leaf : s.Leaf .ofJson) (encodes : ∀ d, s.encode d = d.toJson) : s.Keeps where
  decodes input := by
    rcases leaf input with always | ⟨expected, never⟩
    · exact Or.inl always
    · exact Or.inr (Or.inl fun here => ⟨_, List.cons_ne_nil _ _, never here⟩)
  encodes := encodes

theorem scalar_keeps (kind : Scalar) : (scalar kind : Shape ω).Keeps :=
  (leaf_scalar kind).keeps fun _ => by rw [encode]

theorem Keeps.of_ok {s : Shape ω} (keeps : s.Keeps) {input : Json} {here : Position} {d : Decoded ω}
    (accepted : s.validate input here = .ok d) : d = .ofJson input := by
  rcases keeps.decodes input with always | never | ⟨e, fails⟩
  · rw [always here] at accepted
    exact (Except.ok.inj accepted).symm
  · obtain ⟨found, _, rejected⟩ := never here
    cases rejected.symm.trans accepted
  · cases (fails here).symm.trans accepted

theorem Keeps.uniform {s : Shape ω} (keeps : s.Keeps) : s.Uniform := by
  intro input here there
  rcases keeps.decodes input with always | never | ⟨e, fails⟩
  · rw [always here, always there]
  · obtain ⟨found, _, left⟩ := never here
    obtain ⟨more, _, right⟩ := never there
    rw [left, right]
    rfl
  · rw [fails here, fails there]

/-- A shape of the kinds that types stand for, over checks that change no value. -/
inductive Structural : Shape ω → Prop
  | scalar (kind : Scalar) : Structural (scalar kind)
  | refine {name : String} {base : Shape ω} {accepts : Decoded ω → Bool} (keeps : (refine name base accepts).Keeps) :
      Structural (refine name base accepts)
  | custom {name : String} {validate : Json → Position → Validation ω} {encode : Decoded ω → Json}
      {is : Decoded ω → Bool} (keeps : (custom name validate encode is).Keeps) :
      Structural (custom name validate encode is)
  | array {element : Shape ω} : Structural element → Structural (array element)
  | union {members : List (Shape ω)} (each : ∀ member ∈ members, Structural member) : Structural (union members)
  | object {name : String} {props : List (String × Shape ω)} {lenient : Bool}
      (each : ∀ prop ∈ props, Structural prop.2) : Structural (object name props lenient)
  | both {name leftName rightName : String} {left right : List (String × Shape ω)} {leftLenient rightLenient : Bool}
      (eachLeft : ∀ prop ∈ left, Structural prop.2) (eachRight : ∀ prop ∈ right, Structural prop.2) :
      Structural (intersection name (object leftName left leftLenient) (object rightName right rightLenient))
  | withAttrs {inner : Shape ω} : Structural inner → Structural (withAttrs inner)
  | ofClass {className : String} {inner : Shape ω} {showsAttrs : Bool}
      {construct : Json → Except String (Product ω)} :
      Structural inner → Structural (ofClass className inner showsAttrs construct)

namespace Structural

variable {s : Shape ω}

theorem reporting (structural : s.Structural) : s.Reporting := by
  induction structural with
  | scalar kind => exact (leaf_scalar kind).reporting
  | refine keeps | custom keeps => exact keeps.reporting
  | array _ _ => exact array_reporting _
  | union _ ih => exact union_reporting ih
  | object _ _ => exact object_reporting _ _ _
  | both _ _ _ _ => exact intersection_reporting (object_reporting _ _ _) (object_reporting _ _ _)
  | withAttrs _ ih => exact withAttrs_reporting ih
  | ofClass _ ih => exact ofClass_reporting ih

end Structural

theorem array_uniform {element : Shape ω} (reporting : element.Reporting) (inner : element.Uniform) :
    (array element).Uniform := by
  intro input here there
  cases input with
  | arr items =>
    have alike : List.Forall₂ (fun a b => outcome a = outcome b)
        ((items.zipIdx 0).map fun entry => element.validate entry.1 (here.index entry.2))
        ((items.zipIdx 0).map fun entry => element.validate entry.1 (there.index entry.2)) := by
      rw [List.forall₂_map_left_iff, List.forall₂_map_right_iff]
      exact List.forall₂_same.mpr fun entry _ => inner entry.1 _ _
    simp only [validate, validateItems_eq_collect]
    exact Findings.outcome_finish_collect alike (reports_items reporting here 0 items)
      (reports_items reporting there 0 items)
  | _ => rfl

/-- What the members before have said changes the report and not the outcome. -/
theorem outcome_validateOthers {members : List (Shape ω)} (each : ∀ m ∈ members, m.Uniform) (input : Json)
    (here there : Position) (known more : List Mismatch) :
    outcome (validateOthers (.invalid known) members input here) =
      outcome (validateOthers (.invalid more) members input there) := by
  induction members generalizing known more with
  | nil => rfl
  | cons member rest ih =>
    obtain ⟨first, others⟩ := List.forall_mem_cons.mp each
    rcases outcome_eq_iff.mp (first input here there) with
      ⟨d, left, right⟩ | ⟨found, found', left, right⟩ | ⟨e, left, right⟩
    · simp only [validateOthers, left, right]
    · simp only [validateOthers, left, right]
      exact ih others _ _
    · simp only [validateOthers, left, right]

theorem union_uniform {members : List (Shape ω)} (each : ∀ m ∈ members, m.Uniform) : (union members).Uniform := by
  intro input here there
  cases members with
  | nil => rfl
  | cons first rest =>
    obtain ⟨alike, others⟩ := List.forall_mem_cons.mp each
    rcases outcome_eq_iff.mp (alike input here there) with
      ⟨d, left, right⟩ | ⟨found, more, left, right⟩ | ⟨e, left, right⟩
    · simp only [validate, validateMembers, left, right]
    · simp only [validate, validateMembers, left, right]
      exact outcome_validateOthers others input here there found more
    · simp only [validate, validateMembers, left, right]

theorem forall₂_propResult {props : List (String × Shape ω)} (each : ∀ prop ∈ props, prop.2.Uniform) (lenient : Bool)
    (fields : Fields Json) (here there : Position) :
    List.Forall₂ (fun a b => outcome a = outcome b) (props.filterMap (propResult lenient fields here))
      (props.filterMap (propResult lenient fields there)) := by
  induction props with
  | nil => exact .nil
  | cons prop rest ih =>
    obtain ⟨first, others⟩ := List.forall_mem_cons.mp each
    simp only [List.filterMap_cons, propResult]
    cases Fields.get? prop.1 fields with
    | none => cases lenient with
      | true => exact ih others
      | false => exact .cons rfl (ih others)
    | some value => exact .cons (outcome_map (first value _ _)) (ih others)

theorem object_uniform {props : List (String × Shape ω)} (reporting : ∀ prop ∈ props, prop.2.Reporting)
    (each : ∀ prop ∈ props, prop.2.Uniform) (name : String) (lenient : Bool) :
    (object name props lenient).Uniform := by
  intro input here there
  cases input with
  | obj fields =>
    simp only [validate, validateProps_eq_collect]
    exact Findings.outcome_finish_collect (forall₂_propResult each lenient fields here there)
      (reports_propResult reporting) (reports_propResult reporting)
  | _ => rfl

theorem intersection_uniform {left right : Shape ω} (uniformLeft : left.Uniform) (uniformRight : right.Uniform)
    (name : String) : (intersection name left right).Uniform := by
  intro input here there
  rcases outcome_eq_iff.mp (uniformLeft input here there) with
      ⟨a, first, second⟩ | ⟨found, more, first, second⟩ | ⟨e, first, second⟩ <;>
    rcases outcome_eq_iff.mp (uniformRight input here there) with
        ⟨b, first', second'⟩ | ⟨found', more', first', second'⟩ | ⟨e', first', second'⟩ <;>
      simp only [validate, first, second, first', second', Failure.absorb, outcome]

theorem Leaf.uniform {value : Json → Decoded ω} {s : Shape ω} (leaf : s.Leaf value) : s.Uniform := by
  intro input here there
  rcases leaf input with always | ⟨expected, never⟩
  · rw [always here, always there]
  · rw [never here, never there]
    rfl

theorem withAttrs_uniform {inner : Shape ω} (uniform : inner.Uniform) : (withAttrs inner).Uniform :=
  fun input here there => outcome_map (uniform input here there)

section Parts

variable {required optional : List (String × Shape ω)}

theorem ofParts_uniform (reportingRequired : ∀ prop ∈ required, prop.2.Reporting)
    (reportingOptional : ∀ prop ∈ optional, prop.2.Reporting) (uniformRequired : ∀ prop ∈ required, prop.2.Uniform)
    (uniformOptional : ∀ prop ∈ optional, prop.2.Uniform) (name : Option String) :
    (ofParts name required optional).Uniform := by
  have strictly := object_uniform reportingRequired uniformRequired
  have leniently := object_uniform reportingOptional uniformOptional
  cases required with
  | nil => exact leniently _ _
  | cons first others => cases optional with
    | nil => exact strictly _ _
    | cons => exact intersection_uniform (strictly _ _) (leniently _ _) _

theorem ofProps_uniform (reportingRequired : ∀ prop ∈ required, prop.2.Reporting)
    (reportingOptional : ∀ prop ∈ optional, prop.2.Reporting) (uniformRequired : ∀ prop ∈ required, prop.2.Uniform)
    (uniformOptional : ∀ prop ∈ optional, prop.2.Uniform) (name : Option String) (attrs : Bool) :
    (ofProps name attrs required optional).Uniform := by
  have uniform := ofParts_uniform reportingRequired reportingOptional uniformRequired uniformOptional name
  cases attrs with
  | false => exact uniform
  | true => exact withAttrs_uniform uniform

end Parts

/-- The constructor sees the value and not the place, so a class is as uniform as the shape under
it. -/
theorem ofClass_uniform {inner : Shape ω} (uniform : inner.Uniform) (className : String) (showsAttrs : Bool)
    (construct : Json → Except String (Product ω)) : (ofClass className inner showsAttrs construct).Uniform := by
  intro input here there
  rcases outcome_eq_iff.mp (uniform input here there) with
      ⟨d, left, right⟩ | ⟨found, more, left, right⟩ | ⟨e, left, right⟩ <;>
    simp only [validate, left, right, outcome]

namespace Structural

variable {s : Shape ω}

/-- A structural shape takes no notice of the place it stands in. -/
theorem uniform (structural : s.Structural) : s.Uniform := by
  induction structural with
  | scalar kind => exact (scalar_keeps kind).uniform
  | refine keeps | custom keeps => exact keeps.uniform
  | array inner ih => exact array_uniform inner.reporting ih
  | union _ ih => exact union_uniform ih
  | object each ih => exact object_uniform (fun prop member => (each prop member).reporting) ih _ _
  | both eachLeft eachRight ihLeft ihRight =>
    have left := object_uniform (fun prop member => (eachLeft prop member).reporting) ihLeft
    have right := object_uniform (fun prop member => (eachRight prop member).reporting) ihRight
    exact intersection_uniform (left _ _) (right _ _) _
  | withAttrs _ ih => exact withAttrs_uniform ih
  | ofClass _ ih => exact ofClass_uniform ih _ _ _

theorem validate_eq_ok (structural : s.Structural) {input : Json} {here : Position} {d : Decoded ω}
    (accepted : s.validate input here = .ok d) (there : Position) : s.validate input there = .ok d :=
  structural.uniform.validate_eq_ok accepted there

end Structural

end Conform.Shape
