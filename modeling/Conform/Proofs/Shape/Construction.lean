import Conform.Proofs.Shape.Composed

namespace Conform

variable {ω : Type}

/-- A constructor that was called, what it was handed, and how the call ended. -/
structure Call (ω : Type) where
  className : String
  raw : Json
  outcome : Except String (Product ω)

namespace Call

def Fails (call : Call ω) : Prop := ∃ message, call.outcome = .error message

/-- The error that a failed call is to end a validation with. -/
def error? (call : Call ω) : Option DecodeError :=
  match call.outcome with
  | .ok _ => none
  | .error message => some (.construction call.className message)

theorem error?_eq_some_iff {call : Call ω} {e : DecodeError} :
    call.error? = some e ↔ ∃ message, call.outcome = .error message ∧ e = .construction call.className message := by
  unfold error?
  cases call.outcome <;> simp [eq_comm]

theorem error?_eq_none_iff {call : Call ω} : call.error? = none ↔ ¬call.Fails := by
  unfold error? Fails
  cases call.outcome <;> simp

/-- The first of the calls that fails. -/
def FirstToFail (calls : List (Call ω)) (call : Call ω) : Prop :=
  call.Fails ∧ ∃ before after, calls = before ++ call :: after ∧ ∀ earlier ∈ before, ¬earlier.Fails

end Call

namespace Shape

/-- The calls for a part and for what comes behind it, which is not looked at where the part is fatal. -/
def callsThen {α : Type} (part : Except Failure α) (calls later : List (Call ω)) : List (Call ω) :=
  match part with
  | .error (.fatal _) => calls
  | _ => calls ++ later

/-- The calls for the items of a list from a place on. -/
def itemCalls (validate : Json → Position → Validation ω) (calls : Json → Position → List (Call ω)) (here : Position) :
    (place : Nat) → List Json → List (Call ω)
  | _, [] => []
  | place, item :: rest =>
    callsThen (validate item (here.index place)) (calls item (here.index place))
      (itemCalls validate calls here (place + 1) rest)

mutual

/-- The constructor calls that a validation makes, in their order. -/
def calls : Shape ω → Json → Position → List (Call ω)
  | .scalar _, _, _ => []
  | .array element, input, here =>
    match input with
    | .arr items => itemCalls (validate element) (calls element) here 0 items
    | _ => []
  | .union members, input, here => memberCalls members input here
  | .object _ props _, input, here =>
    match input with
    | .obj fields => propCalls props fields here
    | _ => []
  | .intersection _ left right, input, here => calls left input here ++ calls right input here
  | .refine _ base _, input, here => calls base input here
  | .withAttrs inner, input, here => calls inner input here
  | .ofClass className inner showsAttrs construct, input, here =>
    calls inner input here ++
      match validate inner input here with
      | .ok structural =>
        [⟨className, handed inner showsAttrs structural, construct (handed inner showsAttrs structural)⟩]
      | .error _ => []
  | .custom _ _ _ _, _, _ => []

/-- A member is tried where all members before it were rejected. -/
def memberCalls : List (Shape ω) → Json → Position → List (Call ω)
  | [], _, _ => []
  | member :: rest, input, here =>
    calls member input here ++
      match validate member input here with
      | .error (.invalid _) => memberCalls rest input here
      | _ => []

/-- The calls for the declared keys that are present. -/
def propCalls : List (String × Shape ω) → List (String × Json) → Position → List (Call ω)
  | [], _, _ => []
  | (key, shape) :: rest, fields, here =>
    match Fields.get? key fields with
    | none => propCalls rest fields here
    | some value =>
      callsThen (validate shape value (here.field key)) (calls shape value (here.field key))
        (propCalls rest fields here)

end

/-- The fatal error of a result. -/
def fatal? {α : Type} : Except Failure α → Option DecodeError
  | .error (.fatal e) => some e
  | _ => none

/-- Every validation is fatal with the first call that fails, and only where one does. -/
def Surfaces (s : Shape ω) : Prop :=
  ∀ input here, fatal? (s.validate input here) = (s.calls input here).findSome? Call.error?

/-- Both sides are called in any case, and the left one is the first to fail. -/
theorem intersection_surfaces {name : String} {left right : Shape ω} (leftSurfaces : left.Surfaces)
    (rightSurfaces : right.Surfaces) : (intersection name left right).Surfaces := by
  intro input here
  rw [calls, List.findSome?_append, ← leftSurfaces input here, ← rightSurfaces input here]
  -- The right side is looked at even where the left one is fatal.
  cases first : left.validate input here with
  | ok a => cases second : right.validate input here with
    | ok b => simp only [validate, first, second]; rfl
    | error g => simp only [validate, first, second]; rfl
  | error f => cases second : right.validate input here with
    | ok b => simp only [validate, first, second]; cases f <;> rfl
    | error g => simp only [validate, first, second]; cases f <;> cases g <;> rfl

theorem refine_surfaces {name : String} {base : Shape ω} {fits : Decoded ω → Bool} (surfaces : base.Surfaces) :
    (refine name base fits).Surfaces := by
  intro input here
  rw [calls, ← surfaces input here]
  cases result : base.validate input here with
  | ok d =>
    simp only [validate, result]
    split <;> rfl
  | error f => simp only [validate, result]

/-- A class calls its constructor after all the calls inside, and only on an accepted value. -/
theorem ofClass_surfaces {className : String} {inner : Shape ω} {showsAttrs : Bool}
    {construct : Json → Except String (Product ω)} (surfaces : inner.Surfaces) :
    (ofClass className inner showsAttrs construct).Surfaces := by
  intro input here
  rw [calls, List.findSome?_append, ← surfaces input here]
  cases result : inner.validate input here with
  | ok structural =>
    simp only [validate, result, fatal?, Option.none_or]
    show fatal? (constructFrom className construct (handed inner showsAttrs structural)) = _
    rw [constructFrom, List.findSome?_singleton, Call.error?]
    cases construct (handed inner showsAttrs structural) <;> rfl
  | error f =>
    simp only [validate, result, List.findSome?_nil, Option.or_none]

theorem fatal?_eq_some_iff {α : Type} {result : Except Failure α} {e : DecodeError} :
    fatal? result = some e ↔ result = .error (.fatal e) := by
  cases result with
  | ok d => simp [fatal?]
  | error f => cases f <;> simp [fatal?]

theorem fatal?_eq_none_iff {α : Type} {result : Except Failure α} :
    fatal? result = none ↔ (∃ d, result = .ok d) ∨ ∃ found, result = .error (.invalid found) := by
  cases result with
  | ok d => simp [fatal?]
  | error f => cases f <;> simp [fatal?]

theorem fatal?_map {α β : Type} (f : α → β) (result : Except Failure α) : fatal? (result.map f) = fatal? result := by
  cases result with
  | ok d => rfl
  | error failure => cases failure <;> rfl

section Findings

variable {α β : Type} {results : List (Except Failure α)}

/-- The first fatal result ends the gathering. -/
theorem collect_eq_error_iff {e : DecodeError} :
    Findings.collect results = .error e ↔ results.findSome? fatal? = some e := by
  induction results with
  | nil => simp [Findings.collect]
  | cons result rest ih =>
    rw [Findings.collect_cons, List.findSome?_cons]
    cases result with
    | ok d => simp only [Findings.cons, except_map_eq_error_iff, ih, fatal?]
    | error f => cases f with
      | invalid found => simp only [Findings.cons, except_map_eq_error_iff, ih, fatal?]
      | fatal first => simp [Findings.cons, fatal?]

/-- A composite value is fatal with its first part that is. -/
theorem fatal?_finish_collect (build : List α → β) :
    fatal? (Findings.finish build (Findings.collect results)) = results.findSome? fatal? := by
  cases gathered : Findings.collect results with
  | error e =>
    rw [collect_eq_error_iff.mp gathered]
    rfl
  | ok r =>
    have none : results.findSome? fatal? = none := by
      refine Option.eq_none_iff_forall_ne_some.mpr fun e first => ?_
      rw [collect_eq_error_iff.mpr first] at gathered
      cases gathered
    rw [none, Findings.finish]
    split <;> rfl

end Findings

section Surfaces

variable {input : Json} {here : Position}

theorem findSome?_callsThen {α : Type} {part : Except Failure α} {calls : List (Call ω)}
    (surfaces : fatal? part = calls.findSome? Call.error?) (later : List (Call ω)) :
    (callsThen part calls later).findSome? Call.error? = (fatal? part).or (later.findSome? Call.error?) := by
  have goesOn : (calls ++ later).findSome? Call.error? = (fatal? part).or (later.findSome? Call.error?) := by
    rw [List.findSome?_append, ← surfaces]
  cases part with
  | ok d => exact goesOn
  | error f => cases f with
    | invalid found => exact goesOn
    | fatal e => rw [callsThen, ← surfaces, fatal?, Option.some_or]

theorem findSome?_itemCalls {element : Shape ω} (surfaces : element.Surfaces) (here : Position) (place : Nat)
    (items : List Json) : (itemCalls element.validate element.calls here place items).findSome? Call.error? =
      ((items.zipIdx place).map fun entry => element.validate entry.1 (here.index entry.2)).findSome? fatal? := by
  induction items generalizing place with
  | nil => rfl
  | cons item rest ih =>
    rw [itemCalls, findSome?_callsThen (surfaces item (here.index place)), ih, List.zipIdx_cons, List.map_cons,
      List.findSome?_cons]
    cases fatal? (element.validate item (here.index place)) <;> rfl

/-- An array fails with the first of its items that fails. -/
theorem array_surfaces {element : Shape ω} (surfaces : element.Surfaces) : (array element).Surfaces := by
  intro input here
  cases input with
  | arr items => rw [validate, validateItems_eq_collect, fatal?_finish_collect, calls, findSome?_itemCalls surfaces]
  | _ => rfl

theorem findSome?_propCalls {props : List (String × Shape ω)} (surfaces : ∀ prop ∈ props, prop.2.Surfaces)
    (lenient : Bool) (fields : Fields Json) (here : Position) :
    (propCalls props fields here).findSome? Call.error? =
      (props.filterMap (propResult lenient fields here)).findSome? fatal? := by
  induction props with
  | nil => rfl
  | cons prop rest ih =>
    obtain ⟨key, shape⟩ := prop
    obtain ⟨first, others⟩ := List.forall_mem_cons.mp surfaces
    have later := ih others
    cases present : Fields.get? key fields with
    | none =>
      have skipped : propCalls ((key, shape) :: rest) fields here = propCalls rest fields here := by
        simp only [propCalls, present]
      rw [skipped, later]
      cases lenient with
      | true =>
        have passed : propResult true fields here (key, shape) = none := by
          simp only [propResult, present, if_true]
        rw [List.filterMap_cons_none passed]
      | false =>
        have rejected : propResult false fields here (key, shape) =
            some (.error (.single (here.field key) shape.name none)) := by
          simp [propResult, present]
        rw [List.filterMap_cons_some rejected, List.findSome?_cons]
        rfl
    | some value =>
      have result : propResult lenient fields here (key, shape) =
          some ((shape.validate value (here.field key)).map fun d => (key, d)) := by
        simp only [propResult, present]
      rw [propCalls, present]
      simp only
      rw [findSome?_callsThen (first value (here.field key)), later, List.filterMap_cons_some result,
        List.findSome?_cons, fatal?_map]
      cases fatal? (shape.validate value (here.field key)) <;> rfl

theorem object_surfaces {name : String} {props : List (String × Shape ω)} {lenient : Bool}
    (surfaces : ∀ prop ∈ props, prop.2.Surfaces) : (object name props lenient).Surfaces := by
  intro input here
  cases input with
  | obj fields =>
    rw [validate, validateProps_eq_collect, fatal?_finish_collect, calls, findSome?_propCalls surfaces lenient]
  | _ => rfl

/-- Members are called until one accepts or fails. -/
theorem fatal?_validateOthers {members : List (Shape ω)} (surfaces : ∀ s ∈ members, s.Surfaces)
    (known : List Mismatch) :
    fatal? (validateOthers (.invalid known) members input here) =
      (memberCalls members input here).findSome? Call.error? := by
  induction members generalizing known with
  | nil => rfl
  | cons first rest ih =>
    obtain ⟨here', others⟩ := List.forall_mem_cons.mp surfaces
    have own := here' input here
    cases result : first.validate input here with
    | ok d =>
      rw [result] at own
      simp only [validateOthers, memberCalls, result, List.append_nil]
      exact own
    | error f =>
      rw [result] at own
      cases f with
      | fatal e =>
        simp only [validateOthers, memberCalls, result, List.append_nil]
        exact own
      | invalid more =>
        simp only [validateOthers, memberCalls, result, Failure.absorb, List.findSome?_append, ← own]
        rw [ih others]
        rfl

/-- A union fails with the first member that fails before any accepts. -/
theorem union_surfaces {members : List (Shape ω)} (surfaces : ∀ s ∈ members, s.Surfaces) :
    (union members).Surfaces := by
  intro input here
  cases members with
  | nil => rfl
  | cons first rest =>
    rcases validate_union_cons first rest input here with ⟨_, same⟩ | ⟨found, rejected, same⟩
    · rw [same, fatal?_validateOthers surfaces, calls]
    · obtain ⟨firstSurfaces, others⟩ := List.forall_mem_cons.mp surfaces
      have own := firstSurfaces input here
      rw [rejected] at own
      rw [same, fatal?_validateOthers others, calls]
      simp only [memberCalls, rejected, List.findSome?_append, ← own]
      rfl

theorem withAttrs_surfaces {inner : Shape ω} (surfaces : inner.Surfaces) : (withAttrs inner).Surfaces := by
  intro input here
  rw [calls, ← surfaces input here, validate, fatal?_map]

theorem Leaf.surfaces {value : Json → Decoded ω} {s : Shape ω} (leaf : s.Leaf value)
    (silent : ∀ input here, s.calls input here = []) : s.Surfaces := by
  intro input here
  rw [silent, List.findSome?_nil]
  rcases leaf input with always | ⟨expected, never⟩
  · rw [always here]
    rfl
  · rw [never here]
    rfl

/-- A composed shape fails with its first call to fail: by induction on the shape. -/
theorem Composed.surfaces {s : Shape ω} (composed : s.Composed) : s.Surfaces := by
  induction composed with
  | scalar kind => exact (leaf_scalar kind).surfaces fun _ _ => rfl
  | stock kind => exact kind.leaf_shape.surfaces fun _ _ => by cases kind <;> rfl
  | array _ ih => exact array_surfaces ih
  | union _ ih => exact union_surfaces ih
  | object _ ih => exact object_surfaces ih
  | intersection _ _ first second => exact intersection_surfaces first second
  | refine _ ih => exact refine_surfaces ih
  | withAttrs _ ih => exact withAttrs_surfaces ih
  | ofClass _ ih => exact ofClass_surfaces ih

end Surfaces

/-- Where a constructor fails in the course of a validation, the first that does ends it, whatever was
rejected before or would be behind it. Otherwise the input is accepted or rejected. -/
theorem construction_failures_surface {s : Shape ω} (composed : s.Composed) (input : Json) (here : Position) :
    ((∃ call ∈ s.calls input here, call.Fails) →
      ∃ call message, Call.FirstToFail (s.calls input here) call ∧ call.outcome = .error message ∧
        s.validate input here = .error (.fatal (.construction call.className message))) ∧
    ((∀ call ∈ s.calls input here, ¬call.Fails) →
      (∃ d, s.validate input here = .ok d) ∨ ∃ found, s.validate input here = .error (.invalid found)) := by
  have surfaces := composed.surfaces input here
  constructor
  · rintro ⟨some, listed, fails⟩
    cases first : (s.calls input here).findSome? Call.error? with
    | none =>
      have silent := List.findSome?_eq_none_iff.mp first some listed
      exact absurd fails (Call.error?_eq_none_iff.mp silent)
    | some e =>
      obtain ⟨before, call, after, split, failed, earlier⟩ := List.findSome?_eq_some_iff.mp first
      obtain ⟨message, ended, rfl⟩ := Call.error?_eq_some_iff.mp failed
      have quiet : ∀ other ∈ before, ¬other.Fails :=
        fun other member => Call.error?_eq_none_iff.mp (earlier other member)
      have fatal := fatal?_eq_some_iff.mp (surfaces.trans first)
      exact ⟨call, message, ⟨⟨message, ended⟩, before, after, split, quiet⟩, ended, fatal⟩
  · intro quiet
    have none : (s.calls input here).findSome? Call.error? = none :=
      List.findSome?_eq_none_iff.mpr fun call listed => Call.error?_eq_none_iff.mpr (quiet call listed)
    exact fatal?_eq_none_iff.mp (surfaces.trans none)

/-- A sum of which there must be some. -/
def sumClass (className : String) : Shape Json :=
  .ofClass className (.object className [("cents", .number)] false) false fun raw =>
    if raw = .obj [("cents", .num (.int 0))] then .error "nothing to pay" else .ok (.made raw)

def paymentShape : Shape Json :=
  .object "Payment" [("note", .string), ("fee", sumClass "Fee"),
    ("due", .union [sumClass "Due", .object "Free" [] true]), ("tip", sumClass "Tip")] false

theorem paymentShape_composed : paymentShape.Composed := by
  have sum (className : String) : (sumClass className).Composed :=
    .ofClass (.object (List.forall_mem_singleton.mpr (.scalar .number)))
  have due : (union [sumClass "Due", .object "Free" [] true]).Composed :=
    .union (List.forall_mem_cons.mpr ⟨sum "Due", List.forall_mem_singleton.mpr (.object (by simp))⟩)
  refine .object (List.forall_mem_cons.mpr ⟨.scalar .string, List.forall_mem_cons.mpr ⟨sum "Fee", ?_⟩⟩)
  exact List.forall_mem_cons.mpr ⟨due, List.forall_mem_singleton.mpr (sum "Tip")⟩

def noSum : Json := .obj [("cents", .num (.int 0))]

def someSum : Json := .obj [("cents", .num (.int 5))]

def payment : Json := .obj [("tip", noSum), ("note", .num (.int 7)), ("fee", someSum), ("due", noSum)]

/-- The note is rejected before, the free sum would be accepted behind it, and the tip is not reached. -/
theorem construction_failures_surface_payment :
    paymentShape.calls payment (.top "Payment") =
      [⟨"Fee", someSum, .ok (.made someSum)⟩, ⟨"Due", noSum, .error "nothing to pay"⟩] ∧
    ∃ call message, Call.FirstToFail (paymentShape.calls payment (.top "Payment")) call ∧
      call.outcome = .error message ∧ paymentShape.validate payment (.top "Payment") =
        .error (.fatal (.construction call.className message)) := by
  have made : paymentShape.calls payment (.top "Payment") =
      [⟨"Fee", someSum, .ok (.made someSum)⟩, ⟨"Due", noSum, .error "nothing to pay"⟩] := rfl
  refine ⟨made, (construction_failures_surface paymentShape_composed payment (.top "Payment")).1 ?_⟩
  rw [made]
  exact ⟨_, List.mem_cons_of_mem _ List.mem_cons_self, "nothing to pay", rfl⟩

end Shape

end Conform
