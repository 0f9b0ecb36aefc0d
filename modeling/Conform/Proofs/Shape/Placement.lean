import Conform.Decoder
import Conform.Proofs.Repeats
import Conform.Proofs.Shape.Construction

namespace Conform

namespace Mismatch

/-- The mismatch as it is where the value that it was found in stands at a place. -/
def below (place : String) (m : Mismatch) : Mismatch := { m with path := place ++ m.path }

/-- The mismatch with one place in the stead of another at the beginning of its path. -/
def reroot (old new : String) (m : Mismatch) : Mismatch :=
  { m with path := new ++ String.ofList (m.path.toList.drop old.length) }

theorem below_below (place rest : String) (m : Mismatch) : (m.below rest).below place = m.below (place ++ rest) := by
  rw [below, below, below, String.append_assoc]

theorem reroot_below (old new : String) (m : Mismatch) : (m.below old).reroot old new = m.below new := by
  rw [reroot, below, below, String.toList_append, ← String.length_toList, List.drop_left, String.ofList_toList]

theorem same_below (place : String) (m n : Mismatch) : (m.below place).same (n.below place) = m.same n := by
  rw [Bool.eq_iff_iff, same_iff, same_iff]
  simp only [normal, below, mk.injEq, String.append_right_inj]

/-- Two reports are the same below a place exactly when they are the same without it. -/
theorem addNew_below (place : String) (known : List Mismatch) (m : Mismatch) :
    Failure.addNew (known.map (below place)) (m.below place) = (Failure.addNew known m).map (below place) := by
  have repeated : (known.map (below place)).any ((m.below place).same ·) = known.any (m.same ·) := by
    rw [List.any_map]
    exact congrArg (known.any ·) (funext (same_below place m))
  rw [Failure.addNew, Failure.addNew, repeated, apply_ite (List.map (below place)), List.map_append, List.map_singleton]

theorem foldl_addNew_below (place : String) (known more : List Mismatch) :
    (more.map (below place)).foldl Failure.addNew (known.map (below place)) =
      (more.foldl Failure.addNew known).map (below place) := by
  induction more generalizing known with
  | nil => rfl
  | cons first rest ih => rw [List.map_cons, List.foldl_cons, addNew_below, ih, List.foldl_cons]

end Mismatch

namespace Failure

def onMismatches (change : Mismatch → Mismatch) : Failure → Failure
  | .invalid found => .invalid (found.map change)
  | .fatal e => .fatal e

abbrev below (place : String) : Failure → Failure := onMismatches (.below place)

abbrev reroot (old new : String) : Failure → Failure := onMismatches (.reroot old new)

theorem onMismatches_onMismatches (first second : Mismatch → Mismatch) (f : Failure) :
    (f.onMismatches first).onMismatches second = f.onMismatches (second ∘ first) := by
  cases f with
  | fatal e => rfl
  | invalid found => rw [onMismatches, onMismatches, onMismatches, List.map_map]

theorem below_below (place rest : String) (f : Failure) : (f.below rest).below place = f.below (place ++ rest) := by
  rw [below, onMismatches_onMismatches]
  exact congrArg (f.onMismatches ·) (funext (Mismatch.below_below place rest))

theorem reroot_below (old new : String) (f : Failure) : (f.below old).reroot old new = f.below new := by
  rw [reroot, onMismatches_onMismatches]
  exact congrArg (f.onMismatches ·) (funext (Mismatch.reroot_below old new))

/-- Gathering failures and placing them can be done in either order. -/
theorem below_absorb (place : String) (f g : Failure) :
    (f.below place).absorb (g.below place) = (f.absorb g).below place := by
  cases f with
  | fatal e => rfl
  | invalid known => cases g with
    | fatal e => rfl
    | invalid more => exact congrArg Failure.invalid (Mismatch.foldl_addNew_below place known more)

end Failure

namespace Position

/-- What a key adds to a path that is not empty. -/
def step (k : Key) : String := "." ++ k.text

theorem path_key_of_ne_empty {here : Position} (rooted : here.path ≠ "") (k : Key) :
    (here.key k).path = here.path ++ step k := by
  rw [path_key, extend, if_neg rooted, String.append_assoc, step]

theorem path_key_ne_empty {here : Position} (rooted : here.path ≠ "") (k : Key) : (here.key k).path ≠ "" := by
  rw [path_key_of_ne_empty rooted]
  exact fun empty => rooted (String.append_eq_empty_iff.mp empty).1

end Position

namespace Shape

variable {ω α β : Type}

/-- A result that has its position in the paths of its mismatches and nowhere else. -/
def Placed (results : Position → Except Failure α) : Prop :=
  ∃ apart : Except Failure α, ∀ here, here.path ≠ "" → results here = apart.mapError (.below here.path)

namespace Placed

variable {results : Position → Except Failure α}

theorem ok (value : α) : Placed fun _ => .ok value := ⟨.ok value, fun _ _ => rfl⟩

theorem fatal (e : DecodeError) : Placed (fun _ => .error (.fatal e) : Position → Except Failure α) :=
  ⟨.error (.fatal e), fun _ _ => rfl⟩

theorem single (expected : String) (actual : Option Json) :
    Placed (fun here => .error (.single here expected actual) : Position → Except Failure α) := by
  refine ⟨.error (.invalid [⟨"", expected, actual⟩]), fun here _ => ?_⟩
  have whole : here.path ++ "" = here.path := String.append_empty
  simp only [Except.mapError, Failure.onMismatches, Failure.single, List.map_cons, List.map_nil, Mismatch.below, whole]

theorem key (placed : Placed results) (k : Key) : Placed fun here => results (here.key k) := by
  obtain ⟨apart, same⟩ := placed
  refine ⟨apart.mapError (.below (Position.step k)), fun here rooted => ?_⟩
  simp only [same _ (Position.path_key_ne_empty rooted k), Position.path_key_of_ne_empty rooted]
  cases apart with
  | ok d => rfl
  | error f => exact congrArg Except.error (Failure.below_below here.path (Position.step k) f).symm

theorem bind (placed : Placed results) {next : α → Position → Except Failure β} (each : ∀ value, Placed (next value)) :
    Placed fun here => (results here).bind fun value => next value here := by
  obtain ⟨apart, same⟩ := placed
  cases apart with
  | ok value =>
    obtain ⟨after, sameAfter⟩ := each value
    refine ⟨after, fun here rooted => ?_⟩
    simp only [same here rooted]
    exact sameAfter here rooted
  | error f =>
    refine ⟨.error f, fun here rooted => ?_⟩
    simp only [same here rooted]
    rfl

theorem map (placed : Placed results) (f : α → β) : Placed fun here => (results here).map f := by
  have mapped : (fun here => (results here).map f) = fun here => (results here).bind fun value => .ok (f value) := by
    funext here
    cases results here <;> rfl
  exact mapped ▸ placed.bind fun value => ok (f value)

end Placed

section Parts

theorem collect_below (place : String) (results : List (Except Failure α)) :
    Findings.collect (results.map (·.mapError (.below place))) =
      (Findings.collect results).map fun r => ⟨r.accepted, r.mismatches.map (.below place)⟩ := by
  induction results with
  | nil => rfl
  | cons first rest ih =>
    rw [List.map_cons, Findings.collect_cons, ih, Findings.collect_cons]
    cases first with
    | ok d => cases Findings.collect rest <;> rfl
    | error f => cases f with
      | fatal e => rfl
      | invalid found => cases Findings.collect rest with
        | error e => rfl
        | ok r => simp [Findings.cons, Except.mapError, Except.map, Failure.onMismatches]

/-- A place is put before all the parts at once or before the whole. -/
theorem finish_collect_below (place : String) (build : List α → β) (results : List (Except Failure α)) :
    Findings.finish build (Findings.collect (results.map (·.mapError (.below place)))) =
      (Findings.finish build (Findings.collect results)).mapError (.below place) := by
  rw [collect_below]
  cases Findings.collect results with
  | error e => rfl
  | ok r =>
    simp only [Findings.finish, Except.map, List.isEmpty_map]
    split <;> rfl

/-- Placed parts come from results that know no place. -/
theorem exists_apart {parts : List (Position → Except Failure α)} (each : ∀ part ∈ parts, Placed part) :
    ∃ apart : List (Except Failure α), ∀ here, here.path ≠ "" →
      parts.map (· here) = apart.map (·.mapError (.below here.path)) := by
  induction parts with
  | nil => exact ⟨[], fun _ _ => rfl⟩
  | cons first rest ih =>
    obtain ⟨⟨one, same⟩, others⟩ := List.forall_mem_cons.mp each
    obtain ⟨apart, sameRest⟩ := ih others
    refine ⟨one :: apart, fun here rooted => ?_⟩
    rw [List.map_cons, same here rooted, sameRest here rooted, List.map_cons]

/-- A composite value has its position where its parts have theirs. -/
theorem placed_finish_collect {parts : List (Position → Except Failure α)} (each : ∀ part ∈ parts, Placed part)
    (build : List α → β) : Placed fun here => Findings.finish build (Findings.collect (parts.map (· here))) := by
  obtain ⟨apart, same⟩ := exists_apart each
  refine ⟨Findings.finish build (Findings.collect apart), fun here rooted => ?_⟩
  simp only [same here rooted]
  exact finish_collect_below here.path build apart

end Parts

/-- A shape that decodes an input in the same way wherever it stands. -/
def Independent (s : Shape ω) : Prop := ∀ input, Placed (s.validate input)

section Constructors

/-- A leaf says where it stands and nothing else about its place. -/
theorem Leaf.independent {value : Json → Decoded ω} {s : Shape ω} (leaf : s.Leaf value) : s.Independent := by
  intro input
  rcases leaf input with always | ⟨expected, never⟩
  · exact (funext always : s.validate input = _) ▸ Placed.ok (value input)
  · exact (funext never : s.validate input = _) ▸ Placed.single expected (some input)

/-- An array adds the number of an item to the place it was given. -/
theorem array_independent {element : Shape ω} (independent : element.Independent) : (array element).Independent := by
  intro input
  cases input with
  | arr items =>
    have parts (here : Position) : (items.zipIdx.map fun entry => element.validate entry.1 (here.index entry.2)) =
        (items.zipIdx.map fun entry here => element.validate entry.1 (Position.index here entry.2)).map (· here) := by
      rw [List.map_map]
      rfl
    have whole : (array element).validate (.arr items) = fun here => Findings.finish .arr (Findings.collect
        ((items.zipIdx.map fun entry here => element.validate entry.1 (Position.index here entry.2)).map
          (· here))) := by
      funext here
      rw [validate, validateItems_eq_collect, parts]
    rw [whole]
    refine placed_finish_collect (fun part member => ?_) _
    obtain ⟨entry, _, rfl⟩ := List.mem_map.mp member
    exact (independent entry.1).key (.index entry.2)
  | _ => exact Placed.single _ _

/-- The declared keys of an object that have a result, each with its result at any position. -/
theorem exists_propParts {props : List (String × Shape ω)} (independent : ∀ prop ∈ props, prop.2.Independent)
    (lenient : Bool) (fields : Fields Json) :
    ∃ parts : List (Position → Except Failure (String × Decoded ω)), (∀ part ∈ parts, Placed part) ∧
      ∀ here, props.filterMap (propResult lenient fields here) = parts.map (· here) := by
  induction props with
  | nil => exact ⟨[], by simp, fun _ => rfl⟩
  | cons prop rest ih =>
    obtain ⟨first, others⟩ := List.forall_mem_cons.mp independent
    obtain ⟨parts, placed, same⟩ := ih others
    cases present : Fields.get? prop.1 fields with
    | none =>
      cases lenient with
      | true =>
        refine ⟨parts, placed, fun here => ?_⟩
        rw [← same here, List.filterMap_cons_none (by simp [propResult, present])]
      | false =>
        have missing := (Placed.single prop.2.name none (α := String × Decoded ω)).key (.field prop.1)
        refine ⟨_ :: parts, List.forall_mem_cons.mpr ⟨missing, placed⟩, fun here => ?_⟩
        rw [List.map_cons, ← same here]
        exact List.filterMap_cons_some (by simp [propResult, present, Position.field])
    | some value =>
      have checked := ((first value).key (.field prop.1)).map fun d => (prop.1, d)
      refine ⟨_ :: parts, List.forall_mem_cons.mpr ⟨checked, placed⟩, fun here => ?_⟩
      rw [List.map_cons, ← same here]
      exact List.filterMap_cons_some (by simp [propResult, present, Position.field])

/-- An object adds the key of a property to the place it was given. -/
theorem object_independent {name : String} {props : List (String × Shape ω)} {lenient : Bool}
    (independent : ∀ prop ∈ props, prop.2.Independent) : (object name props lenient).Independent := by
  intro input
  cases input with
  | obj fields =>
    obtain ⟨parts, placed, same⟩ := exists_propParts independent lenient fields
    have whole : (object name props lenient).validate (.obj fields) = fun here =>
        Findings.finish (fun decoded => .obj (rebuild fields decoded)) (Findings.collect (parts.map (· here))) := by
      funext here
      rw [validate, validateProps_eq_collect, same]
    rw [whole]
    exact placed_finish_collect placed _
  | _ => exact Placed.single _ _

/-- Members that are tried after a failure join theirs to it, whose place is the same. -/
theorem placed_validateOthers {members : List (Shape ω)} (independent : ∀ member ∈ members, member.Independent)
    (input : Json) (known : List Mismatch) :
    Placed fun here => validateOthers ((Failure.invalid known).below here.path) members input here := by
  induction members generalizing known with
  | nil => exact ⟨.error (.invalid known), fun _ _ => rfl⟩
  | cons member rest ih =>
    obtain ⟨first, others⟩ := List.forall_mem_cons.mp independent
    obtain ⟨apart, same⟩ := first input
    cases apart with
    | ok d => exact ⟨.ok d, fun here rooted => by simp only [validateOthers, same here rooted, Except.mapError]⟩
    | error f => cases f with
      | fatal e =>
        exact ⟨.error (.fatal e), fun here rooted => by
          simp only [validateOthers, same here rooted, Except.mapError, Failure.onMismatches]⟩
      | invalid found =>
        obtain ⟨after, sameAfter⟩ := ih others (found.foldl Failure.addNew known)
        refine ⟨after, fun here rooted => ?_⟩
        rw [← sameAfter here rooted]
        simp only [validateOthers, same here rooted, Except.mapError, Failure.onMismatches]
        exact congrArg (validateOthers · rest input here)
          (Failure.below_absorb here.path (.invalid known) (.invalid found))

theorem union_independent {members : List (Shape ω)} (independent : ∀ member ∈ members, member.Independent) :
    (union members).Independent := by
  intro input
  cases members with
  | nil => exact Placed.single _ _
  | cons member rest =>
    obtain ⟨first, others⟩ := List.forall_mem_cons.mp independent
    obtain ⟨apart, same⟩ := first input
    cases apart with
    | ok d =>
      exact ⟨.ok d, fun here rooted => by simp only [validate, validateMembers, same here rooted, Except.mapError]⟩
    | error f => cases f with
      | fatal e =>
        exact ⟨.error (.fatal e), fun here rooted => by
          simp only [validate, validateMembers, same here rooted, Except.mapError, Failure.onMismatches]⟩
      | invalid found =>
        obtain ⟨after, sameAfter⟩ := placed_validateOthers others input found
        refine ⟨after, fun here rooted => ?_⟩
        rw [← sameAfter here rooted]
        simp only [validate, validateMembers, same here rooted, Except.mapError, Failure.onMismatches]

theorem intersection_independent {name : String} {left right : Shape ω} (first : left.Independent)
    (second : right.Independent) : (intersection name left right).Independent := by
  intro input
  obtain ⟨a, sameLeft⟩ := first input
  obtain ⟨b, sameRight⟩ := second input
  cases a with
  | ok d => cases b with
    | ok d' => exact ⟨.ok (merge d d'), fun here rooted => by
        simp only [validate, sameLeft here rooted, sameRight here rooted, Except.mapError]⟩
    | error g => exact ⟨.error g, fun here rooted => by
        simp only [validate, sameLeft here rooted, sameRight here rooted, Except.mapError]⟩
  | error f => cases b with
    | ok d' => exact ⟨.error f, fun here rooted => by
        simp only [validate, sameLeft here rooted, sameRight here rooted, Except.mapError]⟩
    | error g => exact ⟨.error (f.absorb g), fun here rooted => by
        simp only [validate, sameLeft here rooted, sameRight here rooted, Except.mapError, Failure.below_absorb]⟩

theorem refine_independent {name : String} {base : Shape ω} {fits : Decoded ω → Bool}
    (independent : base.Independent) : (refine name base fits).Independent := by
  intro input
  have whole : (refine name base fits).validate input = fun here => (base.validate input here).bind fun d =>
      if fits d then .ok d else .error (.single here name (some input)) := by
    funext here
    rw [validate]
    cases base.validate input here <;> rfl
  rw [whole]
  refine (independent input).bind fun d => ?_
  cases fits d with
  | true => exact Placed.ok d
  | false => exact Placed.single name (some input)

/-- A constructor is not told where its value stands. -/
theorem ofClass_independent {className : String} {inner : Shape ω} {showsAttrs : Bool}
    {construct : Json → Except String (Product ω)} (independent : inner.Independent) :
    (ofClass className inner showsAttrs construct).Independent := by
  intro input
  have whole : (ofClass className inner showsAttrs construct).validate input = fun here =>
      (inner.validate input here).bind fun d => constructFrom className construct (handed inner showsAttrs d) := by
    funext here
    rw [validate]
    cases inner.validate input here <;> rfl
  rw [whole]
  refine (independent input).bind fun d => ?_
  rw [constructFrom]
  cases construct (handed inner showsAttrs d) with
  | ok product => exact Placed.ok _
  | error message => exact Placed.fatal _

/-- A composed shape uses its place only to write paths: by induction on the shape. -/
theorem Composed.independent {s : Shape ω} (composed : s.Composed) : s.Independent := by
  induction composed with
  | scalar kind => exact (leaf_scalar kind).independent
  | stock kind => exact kind.leaf_shape.independent
  | array _ ih => exact array_independent ih
  | union _ ih => exact union_independent ih
  | object _ ih => exact object_independent ih
  | intersection _ _ first second => exact intersection_independent first second
  | refine _ ih => exact refine_independent ih
  | withAttrs _ ih => exact fun input => (ih input).map setAttrs
  | ofClass _ ih => exact ofClass_independent ih

end Constructors

section Independent

variable {s : Shape ω} {input : Json} {here there : Position}

/-- A mismatch found at one position is found at another with the place of that position. -/
theorem Independent.validate_eq (independent : s.Independent) (rooted : here.path ≠ "")
    (rootedThere : there.path ≠ "") :
    s.validate input there = (s.validate input here).mapError (.reroot here.path there.path) := by
  obtain ⟨apart, same⟩ := independent input
  rw [same here rooted, same there rootedThere]
  cases apart with
  | ok d => rfl
  | error f => exact congrArg Except.error (Failure.reroot_below here.path there.path f).symm

/-- What a value under a key does is what it does by itself, below its key. -/
theorem Independent.validate_key (independent : s.Independent) (named : s.name ≠ "") (rooted : here.path ≠ "") (k : Key) :
    s.validate input (here.key k) = (s.decode input).mapError (.reroot s.name (here.path ++ "." ++ k.text)) := by
  have top : (Position.top s.name).path ≠ "" := named
  have moved := @Independent.validate_eq ω s input _ _ independent top (Position.path_key_ne_empty rooted k)
  rw [Position.path_key_of_ne_empty rooted, Position.step, ← String.append_assoc] at moved
  exact moved

/-- Every line of a report starts with the path of the place it was asked at. -/
theorem Independent.paths (independent : s.Independent) (rooted : here.path ≠ "") {found : List Mismatch}
    (rejected : s.validate input here = .error (.invalid found)) : ∀ m ∈ found, ∃ rest, m.path = here.path ++ rest := by
  obtain ⟨apart, same⟩ := independent input
  rw [same here rooted] at rejected
  cases apart with
  | ok d => cases rejected
  | error f => cases f with
    | fatal e => cases rejected
    | invalid found =>
      cases rejected
      intro m member
      obtain ⟨source, _, rfl⟩ := List.mem_map.mp member
      exact ⟨source.path, rfl⟩

end Independent

section Quiet

/-- The mismatches of a rejection. -/
def mismatchesIn : Except Failure α → List Mismatch
  | .error (.invalid found) => found
  | _ => []

theorem mismatchesIn_mapError (change : Mismatch → Mismatch) (result : Except Failure α) :
    mismatchesIn (result.mapError (.onMismatches change)) = (mismatchesIn result).map change := by
  cases result with
  | ok d => rfl
  | error f => cases f <;> rfl

theorem fatal?_mapError (change : Mismatch → Mismatch) (result : Except Failure α) :
    fatal? (result.mapError (.onMismatches change)) = fatal? result := by
  cases result with
  | ok d => rfl
  | error f => cases f <;> rfl

theorem mem_mismatchesIn_iff {m : Mismatch} {result : Except Failure α} :
    m ∈ mismatchesIn result ↔ ∃ found, result = .error (.invalid found) ∧ m ∈ found := by
  cases result with
  | ok d => simp [mismatchesIn]
  | error f => cases f <;> simp [mismatchesIn]

theorem mismatchesIn_map (f : α → β) (result : Except Failure α) : mismatchesIn (result.map f) = mismatchesIn result := by
  cases result with
  | ok d => rfl
  | error f => cases f <;> rfl

theorem Findings.mismatches_of_collect {results : List (Except Failure α)} {r : Findings α}
    (found : collect results = .ok r) : r.mismatches = results.flatMap mismatchesIn := by
  induction results generalizing r with
  | nil =>
    cases found
    rfl
  | cons result results ih =>
    rw [collect_cons, cons_eq_ok_iff] at found
    obtain ⟨others, later, ⟨d, rfl, rfl⟩ | ⟨more, rfl, rfl⟩⟩ := found
    · have same := ih later
      exact same
    · exact congrArg (more ++ ·) (ih later)

/-- Where no part is fatal, what is found is what is found in each part. -/
theorem collect_of_quiet {results : List (Except Failure α)} (quiet : ∀ result ∈ results, fatal? result = none) :
    Findings.collect results = .ok ⟨results.filterMap Except.toOption, results.flatMap mismatchesIn⟩ := by
  cases found : Findings.collect results with
  | error e =>
    rw [collect_eq_error_iff, List.findSome?_eq_none_iff.mpr quiet] at found
    cases found
  | ok r => rw [← Findings.accepted_of_collect found, ← Findings.mismatches_of_collect found]

end Quiet

section Items

variable {element : Shape ω} {items : List Json}

/-- What an item does among the items of a list is what it does by itself, below its place in the list. -/
theorem decode_array (independent : element.Independent) (named : element.name ≠ "") (items : List Json) :
    (array element).decode (.arr items) = Findings.finish .arr (Findings.collect (items.zipIdx.map fun entry =>
      (element.decode entry.1).mapError
        (.reroot element.name ((array element).name ++ "." ++ toString entry.2)))) := by
  have rooted : (Position.top (array element).name).path ≠ "" := by
    intro empty
    have prefixed : "Array<" ++ (element.name ++ ">") = "" := by
      rw [← String.append_assoc]
      exact empty
    exact absurd (String.append_eq_empty_iff.mp prefixed).1 (by decide)
  have results : (items.zipIdx.map fun entry => element.validate entry.1 (.index (.top (array element).name) entry.2)) =
      items.zipIdx.map fun entry => (element.decode entry.1).mapError
        (.reroot element.name ((array element).name ++ "." ++ toString entry.2)) :=
    List.map_congr_left fun entry _ => independent.validate_key named rooted (.index entry.2)
  rw [decode, validate, validateItems_eq_collect, results]

/-- An array is accepted when its items are, one by one. -/
theorem decode_array_eq_ok_iff (composed : element.Composed) (named : element.name ≠ "") {d : Decoded ω} :
    (array element).decode (.arr items) = .ok d ↔ ∃ parts, d = .arr parts ∧
      List.Forall₂ (fun item part => element.decode item = .ok part) items parts := by
  rw [decode_array composed.independent named, Findings.finish_collect_eq_ok_iff]
  · refine exists_congr fun parts => ?_
    have items' : items = items.zipIdx.map Prod.fst := (List.zipIdx_map_fst ..).symm
    rw [and_comm, eq_comm, ← List.forall₂_eq_eq_eq, List.forall₂_map_left_iff, List.forall₂_map_right_iff]
    simp only [mapError_eq_ok_iff]
    nth_rewrite 2 [items']
    rw [List.forall₂_map_left_iff]
  · intro result member found rejected
    obtain ⟨entry, _, rfl⟩ := List.mem_map.mp member
    have listed := mismatchesIn_mapError
      (.reroot element.name ((array element).name ++ "." ++ toString entry.2)) (element.decode entry.1)
    rw [rejected] at listed
    cases decoded : element.decode entry.1 with
    | ok d =>
      rw [decoded] at rejected
      cases rejected
    | error f => cases f with
      | fatal e =>
        rw [decoded] at rejected
        cases rejected
      | invalid before =>
        rw [decoded] at listed
        rintro rfl
        exact composed.reporting _ _ before decoded (List.map_eq_nil_iff.mp listed.symm)

/-- A rejected array reports what its items report, each below its number. -/
theorem decode_array_of_rejected (composed : element.Composed) (named : element.name ≠ "")
    (quiet : ∀ item ∈ items, fatal? (element.decode item) = none)
    (rejected : ∃ item ∈ items, ∀ part, element.decode item ≠ .ok part) :
    (array element).decode (.arr items) = .error (.invalid (items.zipIdx.flatMap fun entry =>
      (mismatchesIn (element.decode entry.1)).map
        (.reroot element.name ((array element).name ++ "." ++ toString entry.2)))) := by
  have notAccepted (d : Decoded ω) : (array element).decode (.arr items) ≠ .ok d := by
    intro accepted
    obtain ⟨parts, _, each⟩ := (decode_array_eq_ok_iff composed named).mp accepted
    obtain ⟨item, member, refused⟩ := rejected
    have decoded : ∀ item ∈ items, ∃ part, element.decode item = .ok part :=
      forall_right_of_forall₂ each.flip fun part _ item decoded => ⟨part, decoded⟩
    obtain ⟨part, accepted⟩ := decoded item member
    exact refused part accepted
  have quietParts : ∀ result ∈ items.zipIdx.map fun entry => (element.decode entry.1).mapError
      (.reroot element.name ((array element).name ++ "." ++ toString entry.2)), fatal? result = none := by
    intro result member
    obtain ⟨entry, listed, rfl⟩ := List.mem_map.mp member
    rw [fatal?_mapError]
    exact quiet entry.1 (List.fst_mem_of_mem_zipIdx listed)
  rw [decode_array composed.independent named, collect_of_quiet quietParts, Findings.finish] at notAccepted ⊢
  split
  · rename_i clean
    rw [if_pos clean] at notAccepted
    exact absurd rfl (notAccepted _)
  · rw [List.flatMap_map]
    simp only [mismatchesIn_mapError]

end Items

end Shape

namespace Decoder

variable {ω : Type} {decoder : Decoder ω} {target : Target} {s : Shape ω} {input : Json}

/-- The mismatches that an input has as a target; none where it is accepted. -/
def mismatches (decoder : Decoder ω) (target : Target) (input : Json) : List Mismatch :=
  match decoder.validate target input with
  | .ok (.error found) => found
  | _ => []

theorem validate_of_resolve (resolved : decoder.resolve target = .ok s) : decoder.validate target input =
    match s.decode input with
    | .ok decoded => .ok (.ok decoded)
    | .error (.invalid found) => .ok (.error found)
    | .error (.fatal e) => .error e := by
  rw [validate, resolved]
  rfl

theorem validate_eq_ok_iff (resolved : decoder.resolve target = .ok s) {d : Decoded ω} :
    decoder.validate target input = .ok (.ok d) ↔ s.decode input = .ok d := by
  rw [validate_of_resolve resolved]
  cases s.decode input with
  | ok decoded => simp
  | error f => cases f <;> simp

/-- The lines of a decoder are those of the shape that the target stands for. -/
theorem mismatches_eq (resolved : decoder.resolve target = .ok s) :
    decoder.mismatches target input = Shape.mismatchesIn (s.decode input) := by
  rw [mismatches, validate_of_resolve resolved]
  cases s.decode input with
  | ok decoded => rfl
  | error f => cases f <;> rfl

theorem resolve_arrayOf (resolved : decoder.resolve target = .ok s)
    (plain : decoder.registry.factory arrayTag = .ok .array) : decoder.resolve (.arrayOf target) = .ok (.array s) := by
  have inner : target.elaborate decoder.registry.scope = .ok s := mapError_eq_ok_iff.mp resolved
  have outer : (Target.arrayOf target).elaborate decoder.registry.scope = .ok (.array s) := by
    rw [Target.arrayOf, Target.elaborate, inner]
    simp only [Registry.scope, plain]
    rfl
  exact mapError_eq_ok_iff.mpr outer

end Decoder

open Shape in
/-- Where an input stands shows at the beginning of the paths of its mismatches and nowhere else. So the
items of a list are decoded as they are by themselves, below their places. -/
theorem position_shows_in_paths_only {ω : Type} {s : Shape ω} (composed : s.Composed) :
    (∀ (input : Json) (here there : Position), here.path ≠ "" → there.path ≠ "" →
      s.validate input there = (s.validate input here).mapError (.reroot here.path there.path) ∧
      ∀ found, s.validate input here = .error (.invalid found) →
        ∀ m ∈ found, ∃ rest, m.path = here.path ++ rest) ∧
    ∀ (decoder : Decoder ω) (target : Target) (items : List Json), decoder.resolve target = .ok s →
      decoder.registry.factory arrayTag = .ok .array → s.name ≠ "" →
      (∀ item ∈ items, ∀ call ∈ s.calls item (.top s.name), ¬call.Fails) →
      (∀ d, decoder.validate (.arrayOf target) (.arr items) = .ok (.ok d) ↔ ∃ parts, d = .arr parts ∧
        List.Forall₂ (fun item part => decoder.validate target item = .ok (.ok part)) items parts) ∧
      ((∃ item ∈ items, ∀ part, decoder.validate target item ≠ .ok (.ok part)) →
        decoder.validate (.arrayOf target) (.arr items) = .ok (.error (items.zipIdx.flatMap fun entry =>
          (decoder.mismatches target entry.1).map
            (.reroot s.name ("Array<" ++ s.name ++ ">." ++ toString entry.2))))) := by
  refine ⟨fun input here there rooted rootedThere => ⟨composed.independent.validate_eq rooted rootedThere,
    fun found => composed.independent.paths rooted⟩, ?_⟩
  intro decoder target items resolved plain named quiet
  have whole := Decoder.resolve_arrayOf resolved plain
  have silent : ∀ item ∈ items, fatal? (s.decode item) = none := by
    intro item member
    refine (composed.surfaces item _).trans (List.findSome?_eq_none_iff.mpr fun call listed => ?_)
    exact Call.error?_eq_none_iff.mpr (quiet item member call listed)
  have root (place : Nat) : (array s).name ++ "." ++ toString place = "Array<" ++ s.name ++ ">." ++ toString place := by
    rw [Shape.name, @String.append_assoc ("Array<" ++ s.name)]
    rfl
  constructor
  · intro d
    simp only [Decoder.validate_eq_ok_iff whole, Decoder.validate_eq_ok_iff resolved]
    exact decode_array_eq_ok_iff composed named
  · intro rejected
    simp only [ne_eq, Decoder.validate_eq_ok_iff resolved] at rejected
    rw [Decoder.validate_of_resolve whole, decode_array_of_rejected composed named silent rejected]
    simp only [Decoder.mismatches_eq resolved, root]

/-- An hour or a day, and what it costs to come then. -/
def timedVisitShape : Shape Json :=
  .object "Visit" [("time", .union [.number, .string]), ("fee", Shape.sumClass "Fee")] false

def visitDecoder : Decoder Json := ⟨(Registry.empty.register (.shape "Visit" timedVisitShape)).1⟩

def plannedVisit : Json := .obj [("time", .num (.int 9)), ("fee", Shape.someSum)]

def openVisit : Json := .obj [("time", .null), ("fee", Shape.someSum)]

theorem timedVisitShape_composed : timedVisitShape.Composed := by
  have time : (Shape.union [.number, .string] : Shape Json).Composed :=
    .union (List.forall_mem_cons.mpr ⟨.scalar .number, List.forall_mem_singleton.mpr (.scalar .string)⟩)
  have fee : (Shape.sumClass "Fee").Composed :=
    .ofClass (.object (List.forall_mem_singleton.mpr (.scalar .number)))
  exact .object (List.forall_mem_cons.mpr ⟨time, List.forall_mem_singleton.mpr fee⟩)

/-- What the open visit lacks is reported below its place. -/
theorem position_shows_in_paths_only_visits :
    timedVisitShape.validate openVisit (.top "Trip") =
      (timedVisitShape.validate openVisit (.top "Visit")).mapError (.reroot "Visit" "Trip") ∧
    visitDecoder.validate (.arrayOf (.named "Visit")) (.arr [plannedVisit, openVisit]) =
      .ok (.error [⟨"Array<Visit>.1.time", "number", some .null⟩,
        ⟨"Array<Visit>.1.time", "string", some .null⟩]) := by
  obtain ⟨moved, listed⟩ := position_shows_in_paths_only timedVisitShape_composed
  refine ⟨(moved openVisit (.top "Visit") (.top "Trip") (by decide) (by decide)).1, ?_⟩
  have quiet : ∀ item ∈ [plannedVisit, openVisit],
      ∀ call ∈ timedVisitShape.calls item (.top "Visit"), ¬call.Fails := by
    intro item member call called
    have only : call ∈ [(⟨"Fee", Shape.someSum, .ok (.made Shape.someSum)⟩ : Call Json)] := by
      rcases List.mem_cons.mp member with rfl | later
      · exact called
      · obtain rfl := List.mem_singleton.mp later
        exact called
    rintro ⟨message, failed⟩
    rw [List.mem_singleton.mp only] at failed
    cases failed
  have rejected := (listed visitDecoder (.named "Visit") [plannedVisit, openVisit] rfl rfl (by decide) quiet).2
    ⟨openVisit, List.mem_cons_of_mem _ List.mem_cons_self, nofun⟩
  exact rejected

end Conform
