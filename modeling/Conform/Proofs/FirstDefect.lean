import Conform.Proofs.Advance

namespace Conform

variable {ω : Type}

/-- An error behind properties of object types without a name, the outermost first. -/
def SetupError.behind (path : List String) (root : SetupError) : SetupError :=
  path.foldr (.inProperty literalContext) root

theorem SetupError.root_behind (path : List String) (root : SetupError) : (root.behind path).root = root.root := by
  induction path with
  | nil => rfl
  | cons property path ih => exact ih

/-- The required or the optional ones of some properties. -/
def declaredAs (optional : Bool) (props : List (Property TypeExpr)) : List (Property TypeExpr) :=
  props.filter fun p => !p.isAttrs && p.optional == optional

/-- The properties of an object type in the order in which their types are elaborated. -/
def inTurn (props : List (Property TypeExpr)) : List (Property TypeExpr) :=
  declaredAs false props ++ declaredAs true props

theorem mem_declaredAs {optional : Bool} {props : List (Property TypeExpr)} {p : Property TypeExpr} :
    p ∈ declaredAs optional props ↔ p ∈ props ∧ p.isAttrs = false ∧ p.optional = optional := by
  simp [declaredAs]

theorem mem_inTurn {props : List (Property TypeExpr)} {p : Property TypeExpr} :
    p ∈ inTurn props ↔ p ∈ props ∧ p.isAttrs = false := by
  rw [inTurn, List.mem_append, mem_declaredAs, mem_declaredAs]
  cases p.optional <;> simp

theorem declared_of_turn {props before after : List (Property TypeExpr)} {p : Property TypeExpr}
    (turn : inTurn props = before ++ p :: after) : p ∈ props ∧ p.isAttrs = false :=
  mem_inTurn.mp (turn ▸ List.mem_append_right _ List.mem_cons_self)

namespace TypeExpr

/-- The first part of a type, in the order of elaboration, that asks for what is not there, and the properties that
lead to it. A generic type asks for its tag before anything in its argument. -/
inductive FirstDefect (known made : String → Prop) : TypeExpr → List String → TypeExpr → Prop
  | here {type : TypeExpr} (amiss : ¬type.Admissible known made) : FirstDefect known made type [] type
  | element {element part : TypeExpr} {path : List String} :
      FirstDefect known made element path part → FirstDefect known made (.array element) path part
  | member {members before after : List TypeExpr} {member part : TypeExpr} {path : List String}
      (turn : members = before ++ member :: after) (fine : ∀ other ∈ before, other.Sound known made) :
      FirstDefect known made member path part → FirstDefect known made (.union members) path part
  | prop {props before after : List (Property TypeExpr)} {p : Property TypeExpr} {part : TypeExpr} {path : List String}
      (turn : inTurn props = before ++ p :: after) (fine : ∀ other ∈ before, other.type.Sound known made) :
      FirstDefect known made p.type path part → FirstDefect known made (.literal props) (p.name :: path) part
  | generic {tag : String} {argument part : TypeExpr} {path : List String} (isMade : made tag) :
      FirstDefect known made argument path part → FirstDefect known made (.generic tag argument) path part
  | parameterized {tag : String} {argument part : TypeExpr} {path : List String} (isMade : made tag) :
      FirstDefect known made argument path part → FirstDefect known made (.parameterized tag argument) path part

section Unique

variable {known made : String → Prop} {type part : TypeExpr} {path : List String}

/-- A type with a defect is not sound. -/
theorem FirstDefect.not_sound (first : FirstDefect known made type path part) : ¬type.Sound known made := by
  induction first with
  | here amiss => exact fun sound => amiss (sound _ (.self _))
  | element _ ih => exact fun sound => ih (sound_array_iff.mp sound)
  | member turn _ _ ih => exact fun sound => ih ((sound_union_iff.mp sound).2 _ (by simp [turn]))
  | prop turn _ _ ih =>
    intro sound
    obtain ⟨listed, declared⟩ := declared_of_turn turn
    exact ih ((sound_literal_iff.mp sound).2 _ listed declared)
  | generic _ _ ih => exact fun sound => ih (sound_generic_iff.mp sound).2
  | parameterized _ _ ih => exact fun sound => ih (sound_parameterized_iff.mp sound).2

/-- In a list, the first of those that are not fine is one place. -/
theorem first_unique {α : Type} {fine : α → Prop} {before before' after after' : List α} {a a' : α}
    (same : before ++ a :: after = before' ++ a' :: after') (allFine : ∀ other ∈ before, fine other)
    (notFine : ¬fine a) (allFine' : ∀ other ∈ before', fine other) (notFine' : ¬fine a') : a = a' := by
  induction before generalizing before' with
  | nil => cases before' with
    | nil => exact (List.cons.inj same).1
    | cons first rest =>
      obtain ⟨rfl, _⟩ := List.cons.inj same
      exact absurd (allFine' a List.mem_cons_self) notFine
  | cons first rest ih => cases before' with
    | nil =>
      obtain ⟨rfl, _⟩ := List.cons.inj same
      exact absurd (allFine first List.mem_cons_self) notFine'
    | cons first' rest' =>
      obtain ⟨_, later⟩ := List.cons.inj same
      exact ih later (List.forall_mem_cons.mp allFine).2 (List.forall_mem_cons.mp allFine').2

/-- There is no more than one first defect. -/
theorem FirstDefect.unique {path' : List String} {part' : TypeExpr} (first : FirstDefect known made type path part)
    (other : FirstDefect known made type path' part') : path = path' ∧ part = part' := by
  -- Both lead to the first part that is amiss, so they take the same turn everywhere.
  induction first generalizing path' part' with
  | here amiss => cases other with
    | here => exact ⟨rfl, rfl⟩
    | element => exact absurd trivial amiss
    | member turn => exact absurd (by simp [Admissible, turn]) amiss
    | prop turn => exact absurd ⟨_, declared_of_turn turn⟩ amiss
    | generic isMade | parameterized isMade => exact absurd isMade amiss
  | element _ ih => cases other with
    | here amiss => exact absurd trivial amiss
    | element other => exact ih other
  | member turn fine first ih => cases other with
    | here amiss => exact absurd (by simp [Admissible, turn]) amiss
    | member turn' fine' other =>
      obtain rfl := first_unique (turn.symm.trans turn') fine first.not_sound fine' other.not_sound
      exact ih other
  | prop turn fine first ih => cases other with
    | here amiss => exact absurd ⟨_, declared_of_turn turn⟩ amiss
    | prop turn' fine' other =>
      obtain rfl := first_unique (turn.symm.trans turn') fine first.not_sound fine' other.not_sound
      obtain ⟨rfl, samePart⟩ := ih other
      exact ⟨rfl, samePart⟩
  | generic isMade _ ih => cases other with
    | here amiss => exact absurd isMade amiss
    | generic _ other => exact ih other
  | parameterized isMade _ ih => cases other with
    | here amiss => exact absurd isMade amiss
    | parameterized _ other => exact ih other

end Unique

end TypeExpr

section Elaborate

variable {scope : Scope ω} {context : String} {props : List (Property TypeExpr)} {e : SetupError}

/-- The first member that cannot be elaborated tells the error. -/
theorem TypeExpr.elaborateMembers_eq_error {members : List TypeExpr}
    (failed : elaborateMembers scope members = .error e) : ∃ before member after, members = before ++ member :: after ∧
      (∀ other ∈ before, ∃ shape, other.elaborate scope = .ok shape) ∧ member.elaborate scope = .error e := by
  induction members with
  | nil => cases failed
  | cons first rest ih =>
    rw [elaborateMembers] at failed
    cases here : first.elaborate scope with
    | error cause =>
      rw [here] at failed
      cases failed
      exact ⟨[], first, rest, rfl, by simp, here⟩
    | ok shape =>
      rw [here] at failed
      have later : elaborateMembers scope rest = .error e := by
        cases others : elaborateMembers scope rest with
        | error cause =>
          rw [others] at failed
          cases failed
          rfl
        | ok shapes =>
          rw [others] at failed
          cases failed
      obtain ⟨before, member, after, rfl, fine, amiss⟩ := ih later
      exact ⟨first :: before, member, after, rfl, List.forall_mem_cons.mpr ⟨⟨shape, here⟩, fine⟩, amiss⟩

/-- The properties of some list stop at the first that stands for nothing. -/
def StopsAt (scope : Scope ω) (context : String) (props : List (Property TypeExpr)) (e : SetupError) : Prop :=
  ∃ before p after cause, props = before ++ p :: after ∧
    (∀ other ∈ before, ∃ shape, other.type.elaborate scope = .ok shape) ∧
    p.type.elaborate scope = .error cause ∧ e = .inProperty context p.name cause

theorem StopsAt.cons {p : Property TypeExpr} {shape : Shape ω} (elaborated : p.type.elaborate scope = .ok shape)
    (stops : StopsAt scope context props e) : StopsAt scope context (p :: props) e := by
  obtain ⟨before, stop, after, cause, rfl, fine, rest⟩ := stops
  exact ⟨p :: before, stop, after, cause, rfl, List.forall_mem_cons.mpr ⟨⟨shape, elaborated⟩, fine⟩, rest⟩

theorem StopsAt.append_right (stops : StopsAt scope context props e) (later : List (Property TypeExpr)) :
    StopsAt scope context (props ++ later) e := by
  obtain ⟨before, stop, after, cause, rfl, rest⟩ := stops
  exact ⟨before, stop, after ++ later, cause, by simp, rest⟩

theorem StopsAt.append_left {earlier : List (Property TypeExpr)} (stops : StopsAt scope context props e)
    (fine : ∀ p ∈ earlier, ∃ shape, p.type.elaborate scope = .ok shape) :
    StopsAt scope context (earlier ++ props) e := by
  induction earlier with
  | nil => exact stops
  | cons p rest ih =>
    obtain ⟨⟨shape, here⟩, others⟩ := List.forall_mem_cons.mp fine
    exact (ih others).cons here

theorem StopsAt.exists_mem (stops : StopsAt scope context props e) : ∃ p, p ∈ props := by
  obtain ⟨before, p, after, cause, rfl, _⟩ := stops
  exact ⟨p, by simp⟩

/-- A side stops at its first property that cannot be elaborated. -/
theorem stopsAt_of_elaborateProps {optional : Bool}
    (failed : TypeExpr.elaborateProps scope context optional props = .error e) :
    StopsAt scope context (declaredAs optional props) e := by
  induction props with
  | nil => cases failed
  | cons p rest ih =>
    obtain ⟨name, type, isOptional⟩ := p
    by_cases skipped : name = attrsKey ∨ isOptional ≠ optional
    · rw [TypeExpr.elaborateProps_skip skipped] at failed
      have left : declaredAs optional (⟨name, type, isOptional⟩ :: rest) = declaredAs optional rest :=
        List.filter_cons_of_neg (by simpa [Property.isAttrs, or_iff_not_imp_left] using skipped)
      exact left ▸ ih failed
    · have kept : declaredAs optional (⟨name, type, isOptional⟩ :: rest) =
          ⟨name, type, isOptional⟩ :: declaredAs optional rest :=
        List.filter_cons_of_pos (by simpa [Property.isAttrs, not_or] using skipped)
      rw [kept]
      rw [TypeExpr.elaborateProps, if_neg skipped] at failed
      cases here : type.elaborate scope with
      | error cause =>
        rw [here] at failed
        cases failed
        exact ⟨[], _, _, cause, rfl, by simp, here, rfl⟩
      | ok shape =>
        rw [here] at failed
        refine StopsAt.cons here (ih ?_)
        cases others : TypeExpr.elaborateProps scope context optional rest with
        | error cause =>
          rw [others] at failed
          cases failed
          rfl
        | ok shapes =>
          rw [others] at failed
          cases failed

theorem any_declaredAs {optional : Bool} {p : Property TypeExpr} (listed : p ∈ declaredAs optional props) :
    (props.filter fun p => !p.isAttrs).any (fun p => p.optional == optional) = true := by
  obtain ⟨inProps, declared, same⟩ := mem_declaredAs.mp listed
  exact List.any_eq_true.mpr ⟨p, List.mem_filter.mpr ⟨inProps, by simp [declared]⟩, by simp [same]⟩

/-- An object type stands for nothing because it has no property, or because of the first that stands for nothing. -/
theorem assemble_eq_error {name : Option String} (failed : assemble name props
      (TypeExpr.elaborateProps scope context false props) (TypeExpr.elaborateProps scope context true props) = .error e) :
    (∀ p ∈ props, p.isAttrs = true) ∧ e = .emptySchema (name.getD literalContext) ∨
      StopsAt scope context (inTurn props) e := by
  cases first : TypeExpr.elaborateProps scope context false props with
  | error cause =>
    have stops := stopsAt_of_elaborateProps first
    obtain ⟨p, listed⟩ := stops.exists_mem
    have someRequired : (props.filter fun p => !p.isAttrs).any (!·.optional) = true := by
      simpa using any_declaredAs listed
    rw [first] at failed
    cases someOptional : (props.filter fun p => !p.isAttrs).any (·.optional) with
    | true | false =>
      simp only [assemble, someRequired, someOptional] at failed
      cases failed
      exact Or.inr (stops.append_right _)
  | ok required => cases second : TypeExpr.elaborateProps scope context true props with
    | error cause =>
      have stops := stopsAt_of_elaborateProps second
      obtain ⟨p, listed⟩ := stops.exists_mem
      have someOptional : (props.filter fun p => !p.isAttrs).any (·.optional) = true := by
        simpa using any_declaredAs listed
      have fine : ∀ p ∈ declaredAs false props, ∃ shape, p.type.elaborate scope = .ok shape := by
        intro p listed
        obtain ⟨inProps, declared, isRequired⟩ := mem_declaredAs.mp listed
        exact TypeExpr.elaborateProps_ok_iff.mp ⟨required, first⟩ p inProps declared isRequired
      rw [first, second] at failed
      cases someRequired : (props.filter fun p => !p.isAttrs).any (!·.optional) with
      | true | false =>
        simp only [assemble, someRequired, someOptional] at failed
        cases failed
        exact Or.inr (stops.append_left fine)
    | ok optional =>
      rw [first, second] at failed
      by_cases some : ∃ p ∈ props, p.isAttrs = false
      · obtain ⟨shape, assembled⟩ : ∃ shape, assemble name props (.ok required) (.ok optional) = .ok shape :=
          exists_assemble some required optional
        cases assembled.symm.trans failed
      · have all : ∀ p ∈ props, p.isAttrs = true := by simpa using some
        have none : props.filter (fun p => !p.isAttrs) = [] := by simpa using all
        simp only [assemble, none, List.any_nil] at failed
        cases failed
        exact Or.inl ⟨all, rfl⟩

/-- The factory is looked up before the argument is elaborated. -/
theorem make_eq_error {ε α : Type} {make : Except ε (α → α)} {argument : Except ε α} {e : ε}
    (failed : (do let f ← make; argument.map f) = .error e) :
    make = .error e ∨ (∃ f, make = .ok f) ∧ argument = .error e := by
  cases make with
  | error cause =>
    cases failed
    exact Or.inl rfl
  | ok f => exact Or.inr ⟨⟨f, rfl⟩, except_map_eq_error_iff.mp failed⟩

/-- What is wrong with a part of a type by itself. -/
inductive Scope.Faults (scope : Scope ω) : TypeExpr → SetupError → Prop
  | reference {name : String} {e : SetupError} (failed : scope.resolve name = .error e) :
      Faults scope (.reference name) e
  | union : Faults scope (.union []) (.illegalType "empty union")
  | literal {props : List (Property TypeExpr)} (empty : ∀ p ∈ props, p.isAttrs = true) :
      Faults scope (.literal props) (.emptySchema literalContext)
  | generic {tag : String} {e : SetupError} (argument : TypeExpr) (failed : scope.factory tag = .error e) :
      Faults scope (.generic tag argument) e
  | parameterized {tag : String} {e : SetupError} (argument : TypeExpr) (failed : scope.factory tag = .error e) :
      Faults scope (.parameterized tag argument) e

theorem Scope.Faults.not_admissible {part : TypeExpr} (faults : scope.Faults part e) :
    ¬part.Admissible scope.Knows scope.Makes := by
  cases faults with
  | reference failed =>
    rintro ⟨shape, resolved⟩
    cases failed.symm.trans resolved
  | union => exact fun nonempty => nonempty rfl
  | literal empty =>
    rintro ⟨p, listed, declared⟩
    cases (empty p listed).symm.trans declared
  | generic _ failed | parameterized _ failed =>
    rintro ⟨make, found⟩
    cases failed.symm.trans found

/-- The first defect of a type is what its elaboration stops at. -/
def TypeExpr.Blames (scope : Scope ω) (type : TypeExpr) (e : SetupError) : Prop :=
  ∃ path part root, type.FirstDefect scope.Knows scope.Makes path part ∧ scope.Faults part root ∧ e = root.behind path

theorem TypeExpr.blames_of_faults {type : TypeExpr} (faults : scope.Faults type e) : type.Blames scope e :=
  ⟨[], type, e, .here faults.not_admissible, faults, rfl⟩

/-- The first property in turn that stands for nothing holds the first defect of its object type. -/
theorem firstDefect_of_stopsAt (each : ∀ p ∈ props, ∀ e, p.type.elaborate scope = .error e → p.type.Blames scope e)
    (stops : StopsAt scope context (inTurn props) e) : ∃ property path part root,
      (TypeExpr.literal props).FirstDefect scope.Knows scope.Makes (property :: path) part ∧ scope.Faults part root ∧
        e = .inProperty context property (root.behind path) := by
  obtain ⟨before, p, after, cause, turn, fine, failed, rfl⟩ := stops
  obtain ⟨path, part, root, first, faults, rfl⟩ := each p (declared_of_turn turn).1 cause failed
  have sound : ∀ other ∈ before, other.type.Sound scope.Knows scope.Makes :=
    fun other listed => other.type.elaborate_ok_iff_sound.mp (fine other listed)
  exact ⟨p.name, path, part, root, .prop turn sound first, faults, rfl⟩

/-- An error blames the first defect of its type: by induction on the type. -/
theorem TypeExpr.blames_of_elaborate (type : TypeExpr) :
    ∀ e, type.elaborate scope = .error e → type.Blames scope e := by
  induction type using TypeExpr.induction with
  | scalar kind =>
    intro e failed
    cases failed
  | reference name => exact fun e failed => blames_of_faults (.reference failed)
  | array element ih =>
    intro e failed
    obtain ⟨path, part, root, first, rest⟩ := ih e (except_map_eq_error_iff.mp failed)
    exact ⟨path, part, root, .element first, rest⟩
  | union members ih =>
    intro e failed
    rw [elaborate] at failed
    cases members with
    | nil =>
      cases failed
      exact blames_of_faults .union
    -- The members before the first that fails were elaborated, so they have no defect.
    | cons member rest =>
      rw [if_neg (by simp)] at failed
      obtain ⟨before, member, after, turn, fine, amiss⟩ := elaborateMembers_eq_error (except_map_eq_error_iff.mp failed)
      obtain ⟨path, part, root, first, blamed⟩ := ih member (by simp [turn]) e amiss
      have sound : ∀ other ∈ before, other.Sound scope.Knows scope.Makes :=
        fun other listed => other.elaborate_ok_iff_sound.mp (fine other listed)
      exact ⟨path, part, root, .member turn sound first, blamed⟩
  | literal props ih =>
    intro e failed
    rw [elaborate] at failed
    rcases assemble_eq_error failed with ⟨empty, rfl⟩ | stops
    · exact blames_of_faults (.literal empty)
    · obtain ⟨property, path, part, root, first, faults, rfl⟩ := firstDefect_of_stopsAt ih stops
      exact ⟨property :: path, part, root, first, faults, rfl⟩
  | generic tag argument ih =>
    intro e failed
    rw [elaborate] at failed
    rcases make_eq_error failed with missing | ⟨isMade, amiss⟩
    · exact blames_of_faults (.generic argument missing)
    · obtain ⟨path, part, root, first, rest⟩ := ih e amiss
      exact ⟨path, part, root, .generic isMade first, rest⟩
  | parameterized tag argument ih =>
    intro e failed
    rw [elaborate] at failed
    rcases make_eq_error failed with missing | ⟨isMade, amiss⟩
    · exact blames_of_faults (.parameterized argument missing)
    · obtain ⟨path, part, root, first, rest⟩ := ih e amiss
      exact ⟨path, part, root, .parameterized isMade first, rest⟩

end Elaborate

def Definition.schema? : Definition ω → Option Schema
  | schema s => some s
  | ofClass c => some c.schema
  | shape _ _ => none

namespace Registry

/-- What is wrong with a part of a type by itself, while some names are being registered. -/
def verdict? (r : Registry ω) (taken : List String) : TypeExpr → Option SetupError
  | .reference name =>
    if name ∈ taken then some (.cyclicDefinition name)
    else
      match r.state? name with
      | some .pending => some (.forwardReference name)
      | none => some (.unknownType name)
      | _ => none
  | .literal props => if ∀ p ∈ props, p.isAttrs = true then some (.emptySchema literalContext) else none
  | .union [] => some (.illegalType "empty union")
  | .generic tag _ | .parameterized tag _ =>
    match Fields.get? tag r.factories with
    | some _ => none
    | none => some (.unknownFactory tag)
  | _ => none

variable {r during : Registry ω} {taken : List String}

theorem root_of_verdict {part : TypeExpr} {root : SetupError} (verdict : r.verdict? taken part = some root) :
    root.root = root := by
  cases part with
  | scalar kind | array element => cases verdict
  | reference name =>
    simp only [verdict?] at verdict
    split at verdict
    · cases verdict
      rfl
    · split at verdict
      · cases verdict
        rfl
      · cases verdict
        rfl
      · cases verdict
  | union members => cases members with
    | nil =>
      cases verdict
      rfl
    | cons => cases verdict
  | literal props =>
    rw [verdict?] at verdict
    split at verdict
    · cases verdict
      rfl
    · cases verdict
  | generic tag argument | parameterized tag argument =>
    simp only [verdict?] at verdict
    split at verdict
    · cases verdict
    · cases verdict
      rfl

/-- Some names are being registered, and the rest of a registry is as it was. -/
structure During (r : Registry ω) (taken : List String) (during : Registry ω) : Prop where
  slots : ∀ name, during.slot? name = if name ∈ taken then some .resolving else r.slot? name
  factories : during.factories = r.factories
  free : ∀ name ∈ taken, r.Free name

/-- Names that are being registered are known no more than before. -/
theorem During.knows_iff (isDuring : r.During taken during) (name : String) :
    during.scope.Knows name ↔ r.scope.Knows name := by
  rw [Registry.knows_iff, Registry.knows_iff, isDuring.slots]
  split
  · rename_i listed
    exact iff_of_false (by simp) fun ⟨shape, attrs, found⟩ => not_resolved (isDuring.free name listed) shape attrs found
  · rfl

theorem During.makes_iff (isDuring : r.During taken during) (tag : String) :
    during.scope.Makes tag ↔ r.scope.Makes tag := by
  simp only [Scope.Makes, scope, factory, isDuring.factories]

/-- What is at fault during a registration can be told from the registry before it. -/
theorem During.verdict (isDuring : r.During taken during) (settled : r.Settled) {part : TypeExpr} {e : SetupError}
    (faults : during.scope.Faults part e) : r.verdict? taken part = some e := by
  have made {tag : String} (failed : during.factory tag = .error e) :
      Fields.get? tag r.factories = none ∧ e = .unknownFactory tag := by
    rw [factory, isDuring.factories] at failed
    split at failed
    · cases failed
    · rename_i missing
      cases failed
      exact ⟨missing, rfl⟩
  cases faults with
  | @reference name _ failed =>
    have resolved : during.resolve name = .error e := failed
    rw [resolve, isDuring.slots] at resolved
    rw [verdict?]
    -- A name that is being registered is cyclic; any other one is as it was, and never resolving.
    by_cases listed : name ∈ taken
    · rw [if_pos listed] at resolved ⊢
      cases resolved
      rfl
    · rw [if_neg listed] at resolved ⊢
      have state : r.state? name ≠ some .resolving := settled name
      rw [state?] at state ⊢
      cases found : r.slot? name with
      | none =>
        rw [found] at resolved
        cases resolved
        rfl
      | some slot =>
        rw [found] at resolved state
        cases slot with
        | pending =>
          cases resolved
          rfl
        | resolving => exact absurd rfl state
        | resolved shape attrs => cases resolved
  | union => rfl
  | literal empty => exact if_pos empty
  | generic argument failed | parameterized argument failed =>
    obtain ⟨missing, rfl⟩ := made failed
    simp only [verdict?, missing]

theorem start_eq_error {name : String} {e : SetupError} (failed : r.start name = .error e) : e = .duplicateName name := by
  unfold Registry.start at failed
  split at failed <;> cases failed <;> rfl

/-- A schema that is refused under a free name is refused for what its types stand for. -/
theorem elaborate_of_registerSchema {s : Schema} {e : SetupError} (failed : (r.registerSchema s).2 = .error e)
    (untaken : ∀ name, e ≠ .duplicateName name) :
    r.Free s.name ∧ s.elaborate (r.setSlot s.name .resolving).scope = .error e := by
  unfold registerSchema at failed
  split at failed
  · rename_i taken
    cases failed
    exact absurd (start_eq_error taken) (untaken _)
  · rename_i started wasPending start
    obtain ⟨rfl, free, _⟩ := start_eq_ok start
    refine ⟨free, ?_⟩
    split at failed
    · cases failed
    · rename_i amiss
      cases failed
      exact amiss

theorem during_schema {name : String} (free : r.Free name) : r.During [name] (r.setSlot name .resolving) where
  slots other := by simp only [slot?_setSlot, List.mem_singleton]
  factories := rfl
  free := List.forall_mem_singleton.mpr free

/-- The schema of a class is elaborated while both names are being registered. -/
theorem during_class {className name : String} (free : r.Free className)
    (freeSchema : (r.setSlot className .resolving).Free name) :
    r.During [className, name] ((r.setSlot className .resolving).setSlot name .resolving) where
  slots other := by
    simp only [slot?_setSlot, List.mem_cons, List.not_mem_nil, or_false]
    by_cases isSchema : other = name
    · simp [isSchema]
    · simp [isSchema]
  factories := rfl
  free := List.forall_mem_cons.mpr ⟨free, List.forall_mem_singleton.mpr (free_setSlot_resolving_iff.mp freeSchema).2⟩

/-- A definition is refused for a taken name, or for what the types of its schema stand for while its names are being
registered. -/
theorem elaborate_of_register {d : Definition ω} {s : Schema} (described : d.schema? = some s) {e : SetupError}
    (refused : (r.register d).2 = .error e) (untaken : ∀ name, e ≠ .duplicateName name) :
    ∃ during, r.During d.names during ∧ s.elaborate during.scope = .error e := by
  cases d with
  | schema own =>
    cases described
    obtain ⟨free, failed⟩ := elaborate_of_registerSchema (except_map_eq_error_iff.mp refused) untaken
    exact ⟨_, during_schema free, failed⟩
  | ofClass c =>
    cases described
    simp only [register, registerClass] at refused
    split at refused
    · rename_i taken
      cases refused
      exact absurd (start_eq_error taken) (untaken _)
    · rename_i started wasPending start
      obtain ⟨rfl, free, _⟩ := start_eq_ok start
      split at refused
      · cases refused
      · rename_i rest cause failed
        cases refused
        obtain ⟨freeSchema, amiss⟩ := elaborate_of_registerSchema (congrArg Prod.snd failed) untaken
        exact ⟨_, during_class free freeSchema, amiss⟩
  | shape name given => cases described

/-- A schema, or a class with it, that is refused for anything but a taken name or its own emptiness is refused with an
error that leads, property by property, to the first part of its types that asks for what is not there, and that ends
with what is wrong with this part. -/
theorem setup_error_leads_to_first_defect {events : List (Event ω)} (reached : r.Reached events) {d : Definition ω}
    {s : Schema} (described : d.schema? = some s) {e : SetupError} (refused : (r.register d).2 = .error e)
    (untaken : ∀ name, e ≠ .duplicateName name) (nonempty : e ≠ .emptySchema s.name) :
    ∃ property path part root,
      (TypeExpr.literal s.props).FirstDefect r.scope.Knows r.scope.Makes (property :: path) part ∧
      (∀ otherPath otherPart, (TypeExpr.literal s.props).FirstDefect r.scope.Knows r.scope.Makes otherPath otherPart →
        property :: path = otherPath ∧ part = otherPart) ∧
      e = .inProperty s.name property (root.behind path) ∧ e.root = root ∧ r.verdict? d.names part = some root := by
  obtain ⟨during, isDuring, failed⟩ := elaborate_of_register described refused untaken
  rcases assemble_eq_error failed with ⟨_, rfl⟩ | stops
  · exact absurd rfl nonempty
  · obtain ⟨property, path, part, root, first, faults, rfl⟩ :=
      firstDefect_of_stopsAt (fun p _ => p.type.blames_of_elaborate) stops
    have knows : during.scope.Knows = r.scope.Knows := funext fun name => propext (isDuring.knows_iff name)
    have makes : during.scope.Makes = r.scope.Makes := funext fun tag => propext (isDuring.makes_iff tag)
    rw [knows, makes] at first
    have verdict := isDuring.verdict reached.settled faults
    have innermost : (root.behind path).root = root := (root.root_behind path).trans (root_of_verdict verdict)
    exact ⟨property, path, part, root, first, fun _ _ => first.unique, rfl, innermost, verdict⟩

section Route

/-- A class whose schema refers back to it in an optional property, and to a name that is only announced in a required
one behind it. -/
def routeClass : ClassDefinition Json where
  className := "Route"
  schema := ⟨"Plan", [⟨"next", .reference "Route", true⟩,
    ⟨"stops", .array (.literal [⟨"place", .reference "Depot", false⟩]), false⟩]⟩
  construct raw := .ok (.made raw)

def depotAnnounced : Registry Json := Registry.empty.declare "Depot"

def routeError : SetupError :=
  .inProperty "Plan" "stops" (.inProperty literalContext "place" (.forwardReference "Depot"))

theorem setup_error_leads_to_first_defect_route : depotAnnounced.Reached [] ∧
    (depotAnnounced.register (.ofClass routeClass)).2 = .error routeError ∧
    (∀ name, routeError ≠ .duplicateName name) ∧ routeError ≠ .emptySchema "Plan" ∧
    ∃ property path part root,
      (TypeExpr.literal routeClass.schema.props).FirstDefect depotAnnounced.scope.Knows depotAnnounced.scope.Makes
        (property :: path) part ∧
      routeError = .inProperty "Plan" property (root.behind path) ∧ .forwardReference "Depot" = root ∧
      depotAnnounced.verdict? ["Route", "Plan"] part = some root := by
  have reached : depotAnnounced.Reached [] := .declare "Depot" .empty
  have described : (Definition.ofClass routeClass).schema? = some routeClass.schema := rfl
  have refused : (depotAnnounced.register (.ofClass routeClass)).2 = .error routeError := rfl
  have untaken : ∀ name, routeError ≠ .duplicateName name := by
    rintro name ⟨⟩
  have nonempty : routeError ≠ .emptySchema "Plan" := by
    rintro ⟨⟩
  obtain ⟨property, path, part, root, first, _, leads, isRoot, verdict⟩ :=
    setup_error_leads_to_first_defect reached described refused untaken nonempty
  exact ⟨reached, refused, untaken, nonempty, property, path, part, root, first, leads, isRoot, verdict⟩

end Route

end Registry

end Conform
