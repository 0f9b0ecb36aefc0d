import Conform.Proofs.LastDeclaration
import Conform.Proofs.Shape.Alike
import Conform.Proofs.Shape.Placement
import Conform.Proofs.Shape.Truthful

namespace Conform

namespace Mismatch

variable {known more found : List Mismatch} {m n : Mismatch}

theorem same_comm (m n : Mismatch) : m.same n = n.same m := by
  rw [Bool.eq_iff_iff, same_iff, same_iff, eq_comm]

theorem path_eq_of_same (same : m.same n = true) : m.path = n.path := by
  have paths : m.normal.path = n.normal.path := congrArg Mismatch.path (same_iff.mp same)
  exact paths

/-- No mismatch of a list is the same as another one. -/
def Unrepeated (found : List Mismatch) : Prop := found.Pairwise fun m n => m.same n = false

/-- No mismatch of one list is the same as one of another list. -/
def Apart (known more : List Mismatch) : Prop := ∀ m ∈ known, ∀ n ∈ more, m.same n = false

theorem any_same_eq_false_iff : known.any (m.same ·) = false ↔ ∀ n ∈ known, n.same m = false := by
  simp only [List.any_eq_false, Bool.not_eq_true, same_comm m]

theorem Unrepeated.addNew (unrepeated : Unrepeated known) (m : Mismatch) : Unrepeated (Failure.addNew known m) := by
  by_cases repeated : known.any (m.same ·) = true
  · rwa [addNew_of_any repeated]
  · rw [addNew_of_not_any repeated]
    have new := any_same_eq_false_iff.mp (Bool.eq_false_of_not_eq_true repeated)
    refine List.pairwise_append.mpr ⟨unrepeated, List.pairwise_singleton .., fun n member other last => ?_⟩
    rw [List.mem_singleton.mp last]
    exact new n member

theorem Unrepeated.join (unrepeated : Unrepeated known) (more : List Mismatch) :
    Unrepeated (more.foldl Failure.addNew known) := by
  induction more generalizing known with
  | nil => exact unrepeated
  | cons first rest ih => exact ih (unrepeated.addNew first)

/-- Nothing is left out of what is joined exactly where nothing in it was said before. -/
theorem length_foldl_addNew_iff : (more.foldl Failure.addNew known).length = known.length + more.length ↔
    Unrepeated more ∧ Apart known more := by
  induction more generalizing known with
  | nil => simp [Unrepeated, Apart]
  | cons first rest ih =>
    rw [List.foldl_cons, List.length_cons]
    by_cases repeated : known.any (first.same ·) = true
    -- A line that was said before is lost for good: the rest cannot make up for it.
    · rw [addNew_of_any repeated]
      have atMost : (rest.foldl Failure.addNew known).length ≤ known.length + rest.length := by
        have within := (foldl_addNew_sublist known rest).length_le
        rwa [List.length_append] at within
      refine iff_of_false (by omega) ?_
      rintro ⟨_, apart⟩
      have new : known.any (first.same ·) = false :=
        any_same_eq_false_iff.mpr fun n member => apart n member first List.mem_cons_self
      rw [new] at repeated
      cases repeated
    · have new := any_same_eq_false_iff.mp (Bool.eq_false_of_not_eq_true repeated)
      have count : (rest.foldl Failure.addNew (known ++ [first])).length = known.length + (rest.length + 1) ↔
          (rest.foldl Failure.addNew (known ++ [first])).length = (known ++ [first]).length + rest.length := by
        rw [List.length_append, List.length_singleton]
        omega
      rw [addNew_of_not_any repeated, count, ih, Unrepeated, Unrepeated, List.pairwise_cons]
      constructor
      · rintro ⟨later, apart⟩
        obtain ⟨earlier, own⟩ := List.forall_mem_append.mp apart
        refine ⟨⟨List.forall_mem_singleton.mp own, later⟩, fun m member => ?_⟩
        exact List.forall_mem_cons.mpr ⟨new m member, earlier m member⟩
      · rintro ⟨⟨own, later⟩, apart⟩
        refine ⟨later, List.forall_mem_append.mpr ⟨fun m member => ?_, List.forall_mem_singleton.mpr own⟩⟩
        exact (List.forall_mem_cons.mp (apart m member)).2

end Mismatch

namespace Position

variable {here : Position}

/-- A path is that of a position on the way and what the keys behind it add. -/
theorem path_below (rooted : here.path ≠ "") (chain : List Key) : (here.below chain).path.toList =
    here.path.toList ++ chain.flatMap fun k => '.' :: k.text.toList := by
  induction chain generalizing here with
  | nil => rw [below_nil, List.flatMap_nil, List.append_nil]
  | cons k chain ih =>
    rw [← below_key, ih (path_key_ne_empty rooted k), path_key_of_ne_empty rooted, step, List.flatMap_cons]
    simp

/-- What stands before the first point of a text. -/
theorem takeWhile_of_plain {text : List Char} (plain : '.' ∉ text) (chain : List Key) :
    (text ++ chain.flatMap fun k => '.' :: k.text.toList).takeWhile (· ≠ '.') = text := by
  have kept : ∀ c ∈ text, decide (c ≠ '.') = true := by
    intro c member
    refine decide_eq_true fun point => plain ?_
    rwa [← point]
  rw [List.takeWhile_append_of_pos kept]
  cases chain with
  | nil => simp
  | cons k chain => simp

/-- Below keys without points, a path tells by which key it goes on. -/
theorem text_eq_of_path_eq (rooted : here.path ≠ "") {k l : Key} (plain : '.' ∉ k.text.toList)
    (plainToo : '.' ∉ l.text.toList) {chain others : List Key}
    (same : ((here.key k).below chain).path = ((here.key l).below others).path) : k.text = l.text := by
  have texts := congrArg String.toList same
  rw [path_below (path_key_ne_empty rooted k), path_below (path_key_ne_empty rooted l), path_key_of_ne_empty rooted,
    path_key_of_ne_empty rooted] at texts
  simp only [step, String.toList_append, List.append_assoc, List.append_cancel_left_eq] at texts
  have first := congrArg (List.takeWhile (· ≠ '.')) texts
  rw [takeWhile_of_plain plain, takeWhile_of_plain plainToo] at first
  exact String.toList_inj.mp first

end Position

theorem Key.plain_index (place : Nat) : '.' ∉ (Key.index place).text.toList := by
  intro point
  have digits : '.' ∈ Nat.toDigits 10 place := by
    rwa [Key.text, Nat.toString_eq_repr, Nat.toList_repr] at point
  have digit := Nat.isDigit_of_mem_toDigits (by decide) (by decide) digits
  exact absurd digit (by decide)

/-- Numbers are written differently when they differ. -/
theorem Key.index_text_injective {place other : Nat} (same : (Key.index place).text = (Key.index other).text) :
    place = other := by
  have digits : Nat.toDigits 10 place = Nat.toDigits 10 other := by
    have texts := congrArg String.toList same
    rwa [Key.text, Key.text, Nat.toString_eq_repr, Nat.toString_eq_repr, Nat.toList_repr, Nat.toList_repr] at texts
  rw [← @Nat.ofDigitChars_ten_toDigits place, digits, Nat.ofDigitChars_ten_toDigits]

namespace Mismatch

variable {m n : Mismatch} {here : Position} {input : Json}

/-- A mismatch at a position or at one behind it. -/
def Inside (here : Position) (m : Mismatch) : Prop := ∃ chain, m.path = (here.below chain).path

/-- A line that is true of an input at a place lies inside that place. -/
theorem TrueOf.inside_position (truth : m.TrueOf input here) : m.Inside here := by
  cases truth with
  | found leads expected => exact ⟨_, rfl⟩
  | missing leads absent expected => exact ⟨_, rfl⟩

/-- Lines inside different keys of one place differ in their paths, unless a key has a dot. -/
theorem same_eq_false_of_inside (rooted : here.path ≠ "") {k l : Key} (plain : '.' ∉ k.text.toList)
    (plainToo : '.' ∉ l.text.toList) (different : k.text ≠ l.text) (first : m.Inside (here.key k))
    (second : n.Inside (here.key l)) : m.same n = false := by
  obtain ⟨chain, path⟩ := first
  obtain ⟨others, pathToo⟩ := second
  refine Bool.eq_false_iff.mpr fun same => different ?_
  have paths := path_eq_of_same same
  rw [path, pathToo] at paths
  exact Position.text_eq_of_path_eq rooted plain plainToo paths

end Mismatch

namespace Shape

open Mismatch (Unrepeated Apart Inside)

variable {ω α β : Type} {input : Json} {here : Position} {m : Mismatch}

theorem unrepeated_single (here : Position) (expected : String) (actual : Option Json) :
    Unrepeated (mismatchesIn (.error (.single here expected actual) : Except Failure α)) :=
  List.pairwise_singleton ..

namespace Findings

/-- A whole repeats nothing where none of its parts does and no two of them say the same. -/
theorem unrepeated_finish {results : List (Except Failure α)} {build : List α → β}
    (each : ∀ result ∈ results, Unrepeated (mismatchesIn result))
    (apart : results.Pairwise fun a b => Apart (mismatchesIn a) (mismatchesIn b)) :
    Unrepeated (mismatchesIn (finish build (collect results))) := by
  cases found : collect results with
  | error e => exact .nil
  | ok r =>
    rw [finish]
    split
    · exact .nil
    · rw [mismatchesIn, mismatches_of_collect found]
      exact List.pairwise_flatMap.mpr ⟨each, apart⟩

end Findings

/-- A shape put together from scalars and stock types in which no object declares a key twice or a key with a point. -/
inductive Undotted : Shape ω → Prop
  | scalar (kind : Scalar) : Undotted (scalar kind)
  | stock (kind : Stock) : Undotted kind.shape
  | array {element : Shape ω} : Undotted element → Undotted (array element)
  | union {members : List (Shape ω)} (each : ∀ member ∈ members, Undotted member) : Undotted (union members)
  | object {name : String} {props : List (String × Shape ω)} {lenient : Bool} (distinct : (Fields.keys props).Nodup)
      (plain : ∀ prop ∈ props, '.' ∉ prop.1.toList) (each : ∀ prop ∈ props, Undotted prop.2) :
      Undotted (object name props lenient)
  | intersection {name : String} {left right : Shape ω} :
      Undotted left → Undotted right → Undotted (intersection name left right)
  | refine {name : String} {base : Shape ω} {accepts : Decoded ω → Bool} :
      Undotted base → Undotted (refine name base accepts)
  | withAttrs {inner : Shape ω} : Undotted inner → Undotted (withAttrs inner)
  | ofClass {className : String} {inner : Shape ω} {showsAttrs : Bool}
      {construct : Json → Except String (Product ω)} :
      Undotted inner → Undotted (ofClass className inner showsAttrs construct)

theorem Undotted.composed {s : Shape ω} (undotted : s.Undotted) : s.Composed := by
  induction undotted with
  | scalar kind => exact .scalar kind
  | stock kind => exact .stock kind
  | array _ ih => exact .array ih
  | union _ ih => exact .union ih
  | object _ _ _ ih => exact .object ih
  | intersection _ _ first second => exact .intersection first second
  | refine _ ih => exact .refine ih
  | withAttrs _ ih => exact .withAttrs ih
  | ofClass _ ih => exact .ofClass ih

section Inside

variable {s : Shape ω}

/-- All that a composed shape reports lies inside its place. -/
theorem Composed.inside (composed : s.Composed) : ∀ m ∈ mismatchesIn (s.validate input here), m.Inside here := by
  intro m member
  obtain ⟨found, rejected, named⟩ := mem_mismatchesIn_iff.mp member
  exact (composed.truthful rejected m named).inside_position

theorem inside_of_propResult {lenient : Bool} {fields : Fields Json} {prop : String × Shape ω} (composed : prop.2.Composed)
    {result : Except Failure (String × Decoded ω)} (some : propResult lenient fields here prop = some result) :
    ∀ m ∈ mismatchesIn result, m.Inside (here.field prop.1) := by
  rcases propResult_eq_some_iff.mp some with ⟨_, _, rfl⟩ | ⟨value, _, rfl⟩
  · refine List.forall_mem_singleton.mpr ⟨[], ?_⟩
    rw [Position.below_nil]
  · rw [mismatchesIn_map]
    exact composed.inside

/-- What an object says of an object stands at its keys or behind them. -/
theorem inside_of_object {name : String} {props : List (String × Shape ω)} {lenient : Bool} {fields : Fields Json}
    (composed : ∀ prop ∈ props, prop.2.Composed) :
    ∀ m ∈ mismatchesIn ((object name props lenient).validate (.obj fields) here),
      ∃ prop ∈ props, m.Inside (here.field prop.1) := by
  intro m member
  obtain ⟨found, rejected, named⟩ := mem_mismatchesIn_iff.mp member
  rw [validate, validateProps_eq_collect] at rejected
  obtain ⟨more, listed, said⟩ := (Findings.mem_mismatches_of_finish rejected).2 m named
  obtain ⟨prop, inProps, part⟩ := List.mem_filterMap.mp listed
  exact ⟨prop, inProps, inside_of_propResult (composed prop inProps) part m said⟩

end Inside

section Unrepeated

/-- An array repeats no line when its element repeats none: numbers have no dots. -/
theorem array_unrepeated {element : Shape ω} (composed : element.Composed)
    (each : ∀ input here, here.path ≠ "" → Unrepeated (mismatchesIn (element.validate input here)))
    (rooted : here.path ≠ "") : Unrepeated (mismatchesIn ((array element).validate input here)) := by
  cases input with
  | arr items =>
    rw [validate, validateItems_eq_collect]
    refine Findings.unrepeated_finish (fun result member => ?_) ?_
    · obtain ⟨entry, _, rfl⟩ := List.mem_map.mp member
      exact each _ _ (Position.path_key_ne_empty rooted _)
    · have places : items.zipIdx.Pairwise fun a b => a.2 ≠ b.2 := by
        have nodup : (items.zipIdx.map Prod.snd).Nodup := by
          rw [List.zipIdx_map_snd]
          exact List.nodup_range'
        exact List.pairwise_map.mp nodup
      refine List.pairwise_map.mpr (places.imp fun different m first n second => ?_)
      exact Mismatch.same_eq_false_of_inside rooted (Key.plain_index _) (Key.plain_index _)
        (fun same => different (Key.index_text_injective same)) (composed.inside m first) (composed.inside n second)
  | _ => exact unrepeated_single ..

/-- An object repeats no line when its properties repeat none and have distinct names without dots. -/
theorem object_unrepeated {name : String} {props : List (String × Shape ω)} {lenient : Bool}
    (distinct : (Fields.keys props).Nodup) (plain : ∀ prop ∈ props, '.' ∉ prop.1.toList)
    (composed : ∀ prop ∈ props, prop.2.Composed)
    (each : ∀ prop ∈ props, ∀ input here, here.path ≠ "" → Unrepeated (mismatchesIn (prop.2.validate input here)))
    (rooted : here.path ≠ "") : Unrepeated (mismatchesIn ((object name props lenient).validate input here)) := by
  cases input with
  | obj fields =>
    rw [validate, validateProps_eq_collect]
    refine Findings.unrepeated_finish (fun result member => ?_) ?_
    · obtain ⟨prop, inProps, part⟩ := List.mem_filterMap.mp member
      rcases propResult_eq_some_iff.mp part with ⟨_, _, rfl⟩ | ⟨value, _, rfl⟩
      · exact unrepeated_single ..
      · rw [mismatchesIn_map]
        exact each prop inProps _ _ (Position.path_key_ne_empty rooted _)
    · have keys : props.Pairwise fun a b => a.1 ≠ b.1 := List.pairwise_map.mp distinct
      refine List.pairwise_filterMap.mpr (keys.imp_of_mem fun {p q} one other different a first b second m left n right => ?_)
      have plainFirst : '.' ∉ (Key.field p.1).text.toList := plain p one
      have plainSecond : '.' ∉ (Key.field q.1).text.toList := plain q other
      exact Mismatch.same_eq_false_of_inside rooted plainFirst plainSecond different
        (inside_of_propResult (composed p one) first m left) (inside_of_propResult (composed q other) second n right)
  | _ => exact unrepeated_single ..

/-- A union gathers, so it repeats nothing from member to member. -/
theorem unrepeated_validateOthers {members : List (Shape ω)} {known : List Mismatch} (unrepeated : Unrepeated known) :
    Unrepeated (mismatchesIn (validateOthers (.invalid known) members input here)) := by
  induction members generalizing known with
  | nil => exact unrepeated
  | cons first rest ih =>
    cases result : first.validate input here with
    | ok d =>
      rw [validateOthers, result]
      exact .nil
    | error f => cases f with
      | fatal e =>
        rw [validateOthers, result]
        exact .nil
      | invalid more =>
        rw [validateOthers, result]
        exact ih (unrepeated.join more)

theorem union_unrepeated {members : List (Shape ω)}
    (each : ∀ member ∈ members, Unrepeated (mismatchesIn (member.validate input here))) :
    Unrepeated (mismatchesIn ((union members).validate input here)) := by
  cases members with
  | nil => exact unrepeated_single ..
  | cons first rest =>
    rcases validate_union_cons first rest input here with ⟨_, same⟩ | ⟨found, rejected, same⟩
    · rw [same]
      exact unrepeated_validateOthers .nil
    · have own := each first List.mem_cons_self
      rw [rejected] at own
      rw [same]
      exact unrepeated_validateOthers own

theorem intersection_unrepeated {name : String} {left right : Shape ω}
    (first : Unrepeated (mismatchesIn (left.validate input here)))
    (second : Unrepeated (mismatchesIn (right.validate input here))) :
    Unrepeated (mismatchesIn ((intersection name left right).validate input here)) := by
  rw [validate]
  split
  · exact .nil
  · rename_i f g onLeft onRight
    rw [onLeft] at first
    cases f with
    | fatal e => exact .nil
    | invalid known => cases g with
      | fatal e => exact .nil
      | invalid more => exact first.join more
  · rename_i f d onLeft onRight
    rwa [onLeft] at first
  · rename_i d g onLeft onRight
    rwa [onRight] at second

/-- Below keys without points nothing is said twice. -/
theorem Undotted.unrepeated {s : Shape ω} (undotted : s.Undotted) :
    ∀ input here, here.path ≠ "" → Unrepeated (mismatchesIn (s.validate input here)) := by
  -- A leaf has one line at most.
  have leaf {value : Json → Decoded ω} {s : Shape ω} (leaf : s.Leaf value) (input : Json) (here : Position) :
      Unrepeated (mismatchesIn (s.validate input here)) := by
    rcases leaf input with always | ⟨expected, never⟩
    · rw [always]
      exact .nil
    · rw [never]
      exact unrepeated_single ..
  induction undotted with
  | scalar kind => exact fun input here _ => leaf (leaf_scalar kind) input here
  | stock kind => exact fun input here _ => leaf kind.leaf_shape input here
  | array inner ih => exact fun input here rooted => array_unrepeated inner.composed ih rooted
  | union _ ih => exact fun input here rooted => union_unrepeated fun member listed => ih member listed input here rooted
  | object distinct plain each ih =>
    exact fun input here rooted =>
      object_unrepeated distinct plain (fun prop member => (each prop member).composed) ih rooted
  | intersection _ _ first second =>
    exact fun input here rooted => intersection_unrepeated (first input here rooted) (second input here rooted)
  | @refine name base accepts _ ih =>
    intro input here rooted
    have inner := ih input here rooted
    rw [validate]
    split
    · split
      · exact .nil
      · exact unrepeated_single ..
    · rename_i f rejected
      rwa [rejected] at inner
  | withAttrs _ ih =>
    intro input here rooted
    rw [validate, mismatchesIn_map]
    exact ih input here rooted
  | @ofClass className inner showsAttrs construct _ ih =>
    intro input here rooted
    have structural := ih input here rooted
    rw [validate]
    split
    · rw [constructFrom]
      split <;> exact .nil
    · rename_i f rejected
      rwa [rejected] at structural

end Unrepeated

section Parts

variable {left right : Shape ω} {name : String}

/-- Both sides of an intersection are reported in full exactly where the left side accepts, or nothing that the right
side says was said before. -/
theorem length_intersection_iff (quiet : fatal? ((intersection name left right).validate input here) = none) :
    (mismatchesIn ((intersection name left right).validate input here)).length =
        (mismatchesIn (left.validate input here)).length + (mismatchesIn (right.validate input here)).length ↔
      (∃ d, left.validate input here = .ok d) ∨ Unrepeated (mismatchesIn (right.validate input here)) ∧
        Apart (mismatchesIn (left.validate input here)) (mismatchesIn (right.validate input here)) := by
  rw [validate] at quiet ⊢
  cases first : left.validate input here with
  | ok a => cases second : right.validate input here with
    | ok b => simp [mismatchesIn]
    | error g => simp [mismatchesIn]
  | error f => cases f with
    | fatal e =>
      rw [first] at quiet
      cases second : right.validate input here <;> rw [second] at quiet <;> cases quiet
    | invalid known => cases second : right.validate input here with
      | ok b => simp [mismatchesIn, Unrepeated, Apart]
      | error g => cases g with
        | fatal e =>
          rw [first, second] at quiet
          cases quiet
        | invalid more =>
          simp only [mismatchesIn, Failure.absorb, reduceCtorEq, exists_false, false_or]
          exact Mismatch.length_foldl_addNew_iff

variable {label : Option String} {attrs : Bool} {required optional : List (String × Shape ω)}

theorem mismatchesIn_ofProps (input : Json) (here : Position) :
    mismatchesIn ((ofProps label attrs required optional).validate input here) =
      mismatchesIn ((ofParts label required optional).validate input here) := by
  cases attrs with
  | false => rfl
  | true => exact mismatchesIn_map setAttrs _

theorem fatal?_ofProps (input : Json) (here : Position) :
    fatal? ((ofProps label attrs required optional).validate input here) =
      fatal? ((ofParts label required optional).validate input here) := by
  cases attrs with
  | false => rfl
  | true => exact fatal?_map setAttrs _

/-- Parts whose keys are different and without points say nothing in common. -/
theorem apart_of_keys {name name' : String} {props others : List (String × Shape ω)} {lenient lenient' : Bool}
    {fields : Fields Json} (rooted : here.path ≠ "") (composed : ∀ prop ∈ props, prop.2.Composed)
    (composedToo : ∀ prop ∈ others, prop.2.Composed) (plain : ∀ prop ∈ props, '.' ∉ prop.1.toList)
    (plainToo : ∀ prop ∈ others, '.' ∉ prop.1.toList)
    (different : ∀ prop ∈ props, ∀ other ∈ others, prop.1 ≠ other.1) :
    Apart (mismatchesIn ((object name props lenient).validate (.obj fields) here))
      (mismatchesIn ((object name' others lenient').validate (.obj fields) here)) := by
  intro m left n right
  obtain ⟨p, one, first⟩ := inside_of_object composed m left
  obtain ⟨q, other, second⟩ := inside_of_object composedToo n right
  have plainFirst : '.' ∉ (Key.field p.1).text.toList := plain p one
  have plainSecond : '.' ∉ (Key.field q.1).text.toList := plainToo q other
  exact Mismatch.same_eq_false_of_inside rooted plainFirst plainSecond (different p one q other) first second

end Parts

theorem keys_side_sublist (optional : Bool) (decls : List (Property (Shape ω))) :
    (Fields.keys (side optional decls)).Sublist (decls.map Property.name) := by
  induction decls with
  | nil => exact .slnil
  | cons p rest ih =>
    obtain ⟨name, type, isOptional⟩ := p
    rw [side]
    split
    · exact ih.cons_cons _
    · exact ih.cons _

end Shape

namespace Schema

variable {ω : Type}

/-- What a schema asks of the properties that must be present. -/
def requiredPart (scope : Scope ω) (s : Schema) : Shape ω :=
  .strict (some s.name) (Shape.side false (scope.declarations s.props))

/-- What a schema asks of the properties that may be absent. -/
def optionalPart (scope : Scope ω) (s : Schema) : Shape ω :=
  .lenient (some s.name) (Shape.side true (scope.declarations s.props))

/-- A schema whose properties have different names without points, and their optional types too inside. -/
structure Undotted (scope : Scope ω) (s : Schema) : Prop where
  distinct : ((scope.declarations s.props).map Property.name).Nodup
  plain : ∀ p ∈ scope.declarations s.props, '.' ∉ p.name.toList
  composed : ∀ p ∈ scope.declarations s.props, p.type.Composed
  inside : ∀ p ∈ scope.declarations s.props, p.optional = true → p.type.Undotted

section Undotted

variable {scope : Scope ω} {s : Schema}

theorem Undotted.side (undotted : s.Undotted scope) (optional : Bool) :
    ∀ prop ∈ Shape.side optional (scope.declarations s.props), '.' ∉ prop.1.toList ∧ prop.2.Composed := by
  intro prop listed
  obtain ⟨p, member, _, rfl⟩ := Shape.mem_side.mp listed
  exact ⟨undotted.plain p member, undotted.composed p member⟩

theorem Undotted.optionalPart_undotted (undotted : s.Undotted scope) : (s.optionalPart scope).Undotted := by
  refine .object (undotted.distinct.sublist (Shape.keys_side_sublist true _)) (fun prop listed => ?_) fun prop listed => ?_
  · exact (undotted.side true prop listed).1
  · obtain ⟨p, member, optional, rfl⟩ := Shape.mem_side.mp listed
    exact undotted.inside p member optional

/-- The two sides of a schema with distinct names without dots have no line in common. -/
theorem Undotted.apart (undotted : s.Undotted scope) {here : Position} (rooted : here.path ≠ "") (fields : Fields Json) :
    Mismatch.Apart (Shape.mismatchesIn ((s.requiredPart scope).validate (.obj fields) here))
      (Shape.mismatchesIn ((s.optionalPart scope).validate (.obj fields) here)) := by
  refine Shape.apart_of_keys rooted (fun prop listed => (undotted.side false prop listed).2)
    (fun prop listed => (undotted.side true prop listed).2) (fun prop listed => (undotted.side false prop listed).1)
    (fun prop listed => (undotted.side true prop listed).1) ?_
  intro prop listed other listedToo same
  obtain ⟨p, member, required, rfl⟩ := Shape.mem_side.mp listed
  obtain ⟨q, memberToo, optional, rfl⟩ := Shape.mem_side.mp listedToo
  obtain rfl := List.inj_on_of_nodup_map undotted.distinct member memberToo same
  rw [required] at optional
  cases optional

end Undotted

theorem side_ne_nil {scope : Scope ω} {s : Schema} {shape : Shape ω} (elaborated : s.elaborate scope = .ok shape)
    {p : Property TypeExpr} (member : p ∈ s.props) (declared : p.isAttrs = false) :
    Shape.side p.optional (scope.declarations s.props) ≠ [] := by
  rw [s.elaborate_eq_object] at elaborated
  obtain ⟨type, made⟩ := (eq_ofDeclared_of_object elaborated).1.2 p member declared
  have listed : (p.name, type) ∈ Shape.side p.optional (scope.declarations s.props) := by
    have found := List.mem_filterMap.mpr ⟨p, member, declaration?_of_elaborate declared made⟩
    exact Shape.mem_side.mpr ⟨_, found, rfl, rfl⟩
  exact List.ne_nil_of_mem listed

end Schema

open Shape (mismatchesIn fatal?) in
/-- Where a schema has required and optional properties, all that its two parts say of an object is reported, unless both
reject it and the optional part says something that was said before. What was said before is told by the path as it is
written, not by the place, so this can be of two places; it is of none where no point stands in a key. Of a value that is
no object there is one report. -/
theorem only_repeats_merged {ω : Type} {scope : Scope ω} {s : Schema} {shape : Shape ω}
    (elaborated : s.elaborate scope = .ok shape) (required : ∃ p ∈ s.props, p.isAttrs = false ∧ p.optional = false)
    (optional : ∃ p ∈ s.props, p.isAttrs = false ∧ p.optional = true) :
    (∀ (fields : Fields Json) (here : Position), fatal? (shape.validate (.obj fields) here) = none →
      ((mismatchesIn (shape.validate (.obj fields) here)).length =
          (mismatchesIn ((s.requiredPart scope).validate (.obj fields) here)).length +
            (mismatchesIn ((s.optionalPart scope).validate (.obj fields) here)).length ↔
        (∃ d, (s.requiredPart scope).validate (.obj fields) here = .ok d) ∨
          Mismatch.Unrepeated (mismatchesIn ((s.optionalPart scope).validate (.obj fields) here)) ∧
            Mismatch.Apart (mismatchesIn ((s.requiredPart scope).validate (.obj fields) here))
              (mismatchesIn ((s.optionalPart scope).validate (.obj fields) here))) ∧
      (s.Undotted scope → here.path ≠ "" →
        (mismatchesIn (shape.validate (.obj fields) here)).length =
          (mismatchesIn ((s.requiredPart scope).validate (.obj fields) here)).length +
            (mismatchesIn ((s.optionalPart scope).validate (.obj fields) here)).length)) ∧
    ∀ input, (∀ fields, input ≠ .obj fields) → ∀ here,
      shape.validate input here = .error (.single here s.name (some input)) := by
  obtain ⟨p, memberRequired, declared, isRequired⟩ := required
  obtain ⟨q, memberOptional, declaredToo, isOptional⟩ := optional
  have someRequired := Schema.side_ne_nil elaborated memberRequired declared
  have someOptional := Schema.side_ne_nil elaborated memberOptional declaredToo
  rw [isRequired] at someRequired
  rw [isOptional] at someOptional
  rw [s.elaborate_eq_object] at elaborated
  obtain ⟨_, rfl⟩ := eq_ofDeclared_of_object elaborated
  constructor
  · intro fields here quiet
    rw [Shape.ofDeclared, Shape.fatal?_ofProps, Shape.ofParts_both _ someRequired someOptional] at quiet
    rw [Shape.ofDeclared, Shape.mismatchesIn_ofProps, Shape.ofParts_both _ someRequired someOptional]
    have full := Shape.length_intersection_iff quiet
    refine ⟨full, fun undotted rooted => full.mpr (Or.inr ⟨?_, undotted.apart rooted fields⟩)⟩
    exact undotted.optionalPart_undotted.unrepeated (.obj fields) here rooted
  · intro input notObj here
    exact Shape.validate_ofProps_of_not_obj notObj _ _ _ _ here

section Dotted

def blankScope : Scope Empty := Registry.empty.scope

/-- A place with a name, and a note. -/
def staySchema : Schema :=
  ⟨"Stay", [⟨"place", .literal [⟨"city", .scalar .string, false⟩], false⟩, ⟨"note", .scalar .string, true⟩]⟩

def stayInput : Json := .obj [("place", .obj []), ("note", .null)]

theorem staySchema_undotted : staySchema.Undotted blankScope where
  distinct := by decide
  plain := List.forall_mem_cons.mpr ⟨by decide, List.forall_mem_singleton.mpr (by decide)⟩
  composed := List.forall_mem_cons.mpr ⟨.object (List.forall_mem_singleton.mpr (.scalar .string)),
    List.forall_mem_singleton.mpr (.scalar .string)⟩
  inside := List.forall_mem_cons.mpr ⟨nofun, List.forall_mem_singleton.mpr fun _ => .scalar .string⟩

theorem only_repeats_merged_stay : ∃ shape, staySchema.elaborate blankScope = .ok shape ∧
    (Shape.mismatchesIn (shape.validate stayInput (.top "Stay"))).length =
      (Shape.mismatchesIn ((staySchema.requiredPart blankScope).validate stayInput (.top "Stay"))).length +
        (Shape.mismatchesIn ((staySchema.optionalPart blankScope).validate stayInput (.top "Stay"))).length := by
  have elaborated : ∃ shape, staySchema.elaborate blankScope = .ok shape := ⟨_, rfl⟩
  obtain ⟨shape, made⟩ := elaborated
  refine ⟨shape, made, ?_⟩
  obtain ⟨objects, _⟩ := only_repeats_merged made ⟨_, List.mem_cons_self, rfl, rfl⟩
    ⟨_, List.mem_cons_of_mem _ List.mem_cons_self, rfl, rfl⟩
  cases made
  exact (objects _ (.top "Stay") rfl).2 staySchema_undotted (by decide)

/-- The same path is written for a key with a point and for a key inside a key. -/
def dottedSchema : Schema :=
  ⟨"S", [⟨"a", .literal [⟨"b", .scalar .string, false⟩], false⟩, ⟨"a.b", .scalar .string, true⟩]⟩

def dottedInput : Json := .obj [("a", .obj [("b", .num (.int 1))]), ("a.b", .num (.int 1))]

def dottedMismatch : Mismatch := ⟨"S.a.b", "string", some (.num (.int 1))⟩

/-- Two values are wrong, and one is reported. -/
theorem dotted_keys_merged : ∃ shape, dottedSchema.elaborate blankScope = .ok shape ∧
    (dottedSchema.props.map Property.name).Nodup ∧ Shape.fatal? (shape.decode dottedInput) = none ∧
    Shape.mismatchesIn ((dottedSchema.requiredPart blankScope).decode dottedInput) = [dottedMismatch] ∧
    Shape.mismatchesIn ((dottedSchema.optionalPart blankScope).decode dottedInput) = [dottedMismatch] ∧
    Shape.mismatchesIn (shape.decode dottedInput) = [dottedMismatch] :=
  ⟨_, rfl, by decide, rfl, rfl, rfl, rfl⟩

end Dotted

end Conform
