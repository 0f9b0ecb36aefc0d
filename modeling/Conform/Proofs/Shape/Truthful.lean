import Conform.Proofs.Shape.Composed

namespace Conform

/-- What a chain of keys leads to inside a value. -/
def Json.follow? : List Key → Json → Option Json
  | [], value => some value
  | .field name :: rest, .obj fields => (Fields.get? name fields).bind (follow? rest)
  | .index place :: rest, .arr items => items[place]?.bind (follow? rest)
  | _ :: _, _ => none

theorem Json.follow?_cons (k : Key) (chain : List Key) (input : Json) :
    input.follow? (k :: chain) = (input.follow? [k]).bind (follow? chain) := by
  cases k with
  | field name => cases input with
    | obj fields => cases present : Fields.get? name fields <;> simp [follow?, present]
    | _ => rfl
  | index place => cases input with
    | arr items => cases present : items[place]? <;> simp [follow?, present]
    | _ => rfl

/-- The position that a chain of keys leads to from another one. -/
def Position.below (p : Position) (chain : List Key) : Position := { p with keys := p.keys ++ chain }

theorem Position.below_nil (p : Position) : p.below [] = p := by
  rw [below, List.append_nil]

theorem Position.below_key (p : Position) (k : Key) (chain : List Key) :
    (p.key k).below chain = p.below (k :: chain) := by
  simp only [below, key, List.append_assoc, List.singleton_append]

namespace Mismatch

/-- A mismatch says what is so of an input that stands at a position: a chain of keys leads on from there to
the value that was found, or to an object in which the last key of its path is missing. -/
inductive TrueOf (input : Json) (here : Position) : Mismatch → Prop
  | found {chain : List Key} {value : Json} (leads : input.follow? chain = some value) (expected : String) :
      TrueOf input here ⟨(here.below chain).path, expected, some value⟩
  | missing {chain : List Key} {key : String} {fields : Fields Json} (leads : input.follow? chain = some (.obj fields))
      (absent : key ∉ Fields.keys fields) (expected : String) :
      TrueOf input here ⟨(here.below (chain ++ [.field key])).path, expected, none⟩

variable {input value : Json} {here : Position} {m : Mismatch}

theorem TrueOf.own (input : Json) (here : Position) (expected : String) :
    TrueOf input here ⟨here.path, expected, some input⟩ := by
  have itself : TrueOf input here ⟨(here.below []).path, expected, some input⟩ := .found rfl expected
  rwa [Position.below_nil] at itself

/-- What is true of a value is true of the input in which a key leads to it. -/
theorem TrueOf.inside {k : Key} (leads : input.follow? [k] = some value) (truth : m.TrueOf value (here.key k)) :
    m.TrueOf input here := by
  cases truth with
  | @found chain actual further expected =>
    have whole : input.follow? (k :: chain) = some actual := by
      rw [Json.follow?_cons, leads, Option.bind_some, further]
    rw [Position.below_key]
    exact .found whole expected
  | @missing chain key fields further absent expected =>
    have whole : input.follow? (k :: chain) = some (.obj fields) := by
      rw [Json.follow?_cons, leads, Option.bind_some, further]
    rw [Position.below_key]
    exact .missing whole absent expected

end Mismatch

namespace Shape

variable {ω : Type}

/-- Whatever the shape says of a rejected input is true of it. -/
def Truthful (s : Shape ω) : Prop :=
  ∀ {input : Json} {here : Position} {found : List Mismatch}, s.validate input here = .error (.invalid found) →
    ∀ m ∈ found, m.TrueOf input here

section Truthful

variable {input : Json} {here : Position} {m : Mismatch}

theorem single_true {expected : String} {found : List Mismatch}
    (own : Failure.single here expected (some input) = .invalid found) : ∀ m ∈ found, m.TrueOf input here := by
  cases own
  exact List.forall_mem_singleton.mpr (.own input here expected)

/-- A leaf names the place it stands in and the value it found there. -/
theorem Leaf.truthful {value : Json → Decoded ω} {s : Shape ω} (leaf : s.Leaf value) : s.Truthful := by
  intro input here found rejected
  obtain ⟨_, expected, own⟩ := leaf.of_error rejected
  exact single_true own.symm

/-- What is true of an item is true of the array that holds it. -/
theorem array_truthful {element : Shape ω} (truthful : element.Truthful) : (array element).Truthful := by
  intro input here found rejected m member
  cases input with
  | arr items =>
    rw [validate, validateItems_eq_collect] at rejected
    obtain ⟨more, listed, named⟩ := (Findings.mem_mismatches_of_finish rejected).2 m member
    obtain ⟨⟨item, place⟩, inItems, refused⟩ := List.mem_map.mp listed
    have stands : items[place]? = some item := List.mem_zipIdx_iff_getElem?.mp inItems
    have leads : (Json.arr items).follow? [.index place] = some item := by
      rw [Json.follow?, stands]
      rfl
    exact .inside leads (truthful refused m named)
  | _ => exact single_true (Except.error.inj rejected) m member

/-- An object says which key is missing, and passes on what is true of its parts. -/
theorem object_truthful {name : String} {props : List (String × Shape ω)} {lenient : Bool}
    (truthful : ∀ prop ∈ props, prop.2.Truthful) : (object name props lenient).Truthful := by
  intro input here found rejected m member
  cases input with
  | obj fields =>
    rw [validate, validateProps_eq_collect] at rejected
    obtain ⟨more, listed, named⟩ := (Findings.mem_mismatches_of_finish rejected).2 m member
    obtain ⟨prop, inProps, equal⟩ := List.mem_filterMap.mp listed
    rcases propResult_eq_some_iff.mp equal with ⟨gone, _, refused⟩ | ⟨value, present, refused⟩
    · cases refused
      cases List.mem_singleton.mp named
      have absent : prop.1 ∉ Fields.keys fields := Fields.get?_eq_none_iff.mp gone
      have itself : (Json.obj fields).follow? [] = some (.obj fields) := rfl
      exact .missing itself absent prop.2.name
    · have below : prop.2.validate value (here.field prop.1) = .error (.invalid more) :=
        except_map_eq_error_iff.mp refused.symm
      have leads : (Json.obj fields).follow? [.field prop.1] = some value := by
        rw [Json.follow?, present]
        rfl
      exact .inside leads (truthful prop inProps below m named)
  | _ => exact single_true (Except.error.inj rejected) m member

theorem mem_of_mem_foldl_addNew {known more : List Mismatch} (member : m ∈ more.foldl Failure.addNew known) :
    m ∈ known ∨ m ∈ more := by
  induction more generalizing known with
  | nil => exact Or.inl member
  | cons first rest ih =>
    rcases ih member with earlier | later
    · unfold Failure.addNew at earlier
      split at earlier
      · exact Or.inl earlier
      · rcases List.mem_append.mp earlier with before | new
        · exact Or.inl before
        · exact Or.inr (List.mem_cons.mpr (Or.inl (List.mem_singleton.mp new)))
    · exact Or.inr (List.mem_cons_of_mem _ later)

/-- What members join to a failure is what they say themselves. -/
theorem mem_of_validateOthers {members : List (Shape ω)} {known found : List Mismatch}
    (rejected : validateOthers (.invalid known) members input here = .error (.invalid found)) (member : m ∈ found) :
    m ∈ known ∨ ∃ s ∈ members, ∃ more, s.validate input here = .error (.invalid more) ∧ m ∈ more := by
  induction members generalizing known with
  | nil =>
    cases rejected
    exact Or.inl member
  | cons first rest ih =>
    cases result : first.validate input here with
    | ok d => simp [validateOthers, result] at rejected
    | error f => cases f with
      | fatal e => simp [validateOthers, result] at rejected
      | invalid more =>
        simp only [validateOthers, result, Failure.absorb] at rejected
        rcases ih rejected with earlier | ⟨s, listed, named⟩
        · rcases mem_of_mem_foldl_addNew earlier with before | here
          · exact Or.inl before
          · exact Or.inr ⟨first, List.mem_cons_self, more, result, here⟩
        · exact Or.inr ⟨s, List.mem_cons_of_mem _ listed, named⟩

/-- Every member looks at the same value, so what each says is true of it. -/
theorem union_truthful {members : List (Shape ω)} (truthful : ∀ s ∈ members, s.Truthful) :
    (union members).Truthful := by
  intro input here found rejected m member
  cases members with
  | nil => exact single_true (Except.error.inj rejected) m member
  | cons first rest =>
    rcases validate_union_cons first rest input here with ⟨_, same⟩ | ⟨more, refused, same⟩
    · rw [same] at rejected
      rcases mem_of_validateOthers rejected member with none | ⟨s, listed, more, refused, named⟩
      · cases none
      · exact truthful s listed refused m named
    · rw [same] at rejected
      rcases mem_of_validateOthers rejected member with earlier | ⟨s, listed, further, refusedToo, named⟩
      · exact truthful first List.mem_cons_self refused m earlier
      · exact truthful s (List.mem_cons_of_mem _ listed) refusedToo m named

theorem intersection_truthful {name : String} {left right : Shape ω} (leftTruthful : left.Truthful)
    (rightTruthful : right.Truthful) : (intersection name left right).Truthful := by
  intro input here found rejected m member
  cases first : left.validate input here with
  | ok a => cases second : right.validate input here with
    | ok b => simp [validate, first, second] at rejected
    | error g =>
      simp only [validate, first, second] at rejected
      exact rightTruthful (second.trans rejected) m member
  | error f => cases second : right.validate input here with
    | ok b =>
      simp only [validate, first, second] at rejected
      exact leftTruthful (first.trans rejected) m member
    | error g =>
      simp only [validate, first, second, Except.error.injEq] at rejected
      cases f with
      | fatal e => cases rejected
      | invalid known => cases g with
        | fatal e => cases rejected
        | invalid more =>
          cases rejected
          rcases mem_of_mem_foldl_addNew member with onLeft | onRight
          · exact leftTruthful first m onLeft
          · exact rightTruthful second m onRight

theorem refine_truthful {name : String} {base : Shape ω} {fits : Decoded ω → Bool} (truthful : base.Truthful) :
    (refine name base fits).Truthful := by
  intro input here found rejected m member
  rcases validate_refine_eq_invalid rejected with inner | own
  · exact truthful inner m member
  · rw [own] at member
    cases List.mem_singleton.mp member
    exact .own input here name

theorem withAttrs_truthful {inner : Shape ω} (truthful : inner.Truthful) : (withAttrs inner).Truthful := by
  intro input here found rejected
  rw [validate, except_map_eq_error_iff] at rejected
  exact truthful rejected

/-- What a composed shape reports is true of its input: by induction on the shape. -/
theorem Composed.truthful {s : Shape ω} (composed : s.Composed) : s.Truthful := by
  induction composed with
  | scalar kind => exact (leaf_scalar kind).truthful
  | stock kind => exact kind.leaf_shape.truthful
  | array _ ih => exact array_truthful ih
  | union _ ih => exact union_truthful ih
  | object _ ih => exact object_truthful ih
  | intersection _ _ first second => exact intersection_truthful first second
  | refine _ ih => exact refine_truthful ih
  | withAttrs _ ih => exact withAttrs_truthful ih
  | ofClass _ ih => exact fun rejected => ih (validate_ofClass_eq_invalid rejected)

end Truthful

/-- A rejection names something, and all that it names is so: along the keys behind the position's own path
stands just the value that was found, or an object without the key that is missing. -/
theorem rejection_true_of_input {s : Shape ω} (composed : s.Composed) {input : Json} {here : Position}
    {found : List Mismatch} (rejected : s.validate input here = .error (.invalid found)) :
    found ≠ [] ∧ ∀ m ∈ found, m.TrueOf input here :=
  ⟨composed.reporting input here found rejected, composed.truthful rejected⟩

def lineShape : Shape Json := .object "Line" [("sku", .string), ("count", .number)] false

def orderShape : Shape Json :=
  .withAttrs (.intersection "Order" (.object "Order" [("lines", .array (.union [lineShape, .null]))] false)
    (.object "Order" [("when", Builtin.date)] true))

theorem orderShape_composed : orderShape.Composed := by
  have line : lineShape.Composed :=
    .object (List.forall_mem_cons.mpr ⟨.scalar .string, List.forall_mem_singleton.mpr (.scalar .number)⟩)
  have lines : (array (union [lineShape, null])).Composed :=
    .array (.union (List.forall_mem_cons.mpr ⟨line, List.forall_mem_singleton.mpr (.scalar .null)⟩))
  exact .withAttrs (.intersection (.object (List.forall_mem_singleton.mpr lines))
    (.object (List.forall_mem_singleton.mpr (.stock .date))))

def brokenLine : Json := .obj [("count", .str "two")]

def brokenOrder : Json := .obj [("when", .num (.int 3)), ("lines", .arr [.null, brokenLine])]

def brokenOrderMismatches : List Mismatch :=
  [⟨"Order.lines.1.sku", "string", none⟩, ⟨"Order.lines.1.count", "number", some (.str "two")⟩,
    ⟨"Order.lines.1", "null", some brokenLine⟩, ⟨"Order.when", "Date", some (.num (.int 3))⟩]

/-- Both members of a union speak of the second line, and the optional part of what stands beside it. -/
theorem rejection_true_of_input_order :
    orderShape.validate brokenOrder (.top "Order") = .error (.invalid brokenOrderMismatches) ∧
      brokenOrderMismatches ≠ [] ∧ ∀ m ∈ brokenOrderMismatches, m.TrueOf brokenOrder (.top "Order") :=
  ⟨rfl, rejection_true_of_input orderShape_composed rfl⟩

end Shape

end Conform
