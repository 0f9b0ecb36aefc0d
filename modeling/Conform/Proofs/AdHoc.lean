import Conform.Proofs.Inlining
import Conform.Proofs.Kinds
import Conform.Proofs.Shape.Placement

namespace Conform

variable {ω : Type}

namespace Target

/-- The name that the tags of a target are applied to. -/
def base : Target → String
  | named name => name
  | generic _ argument => base argument

/-- A type that says what a target says: a reference to its name, under its tags in either of their two forms. -/
inductive Writes : Target → TypeExpr → Prop
  | named (name : String) : Writes (.named name) (.reference name)
  | generic (tag : String) {argument : Target} {type : TypeExpr} :
      Writes argument type → Writes (.generic tag argument) (.generic tag type)
  | parameterized (tag : String) {argument : Target} {type : TypeExpr} :
      Writes argument type → Writes (.generic tag argument) (.parameterized tag type)

/-- A type that writes a target elaborates to what the target stands for. -/
theorem Writes.elaborate_eq {target : Target} {type : TypeExpr} (writes : target.Writes type) (scope : Scope ω) :
    type.elaborate scope = target.elaborate scope := by
  induction writes with
  | named name => rw [TypeExpr.elaborate, elaborate]
  | generic tag _ ih | parameterized tag _ ih => rw [TypeExpr.elaborate, elaborate, ih]

/-- What a target stands for does not depend on a name that it does not mention. -/
theorem elaborate_setSlot {target : Target} {name : String} (apart : target.base ≠ name) (r : Registry ω)
    (slot : Slot ω) : target.elaborate (r.setSlot name slot).scope = target.elaborate r.scope := by
  induction target with
  | named own =>
    have different : own ≠ name := apart
    simp only [elaborate, Registry.scope, Registry.resolve, Registry.slot?_setSlot, if_neg different]
  | generic tag argument ih =>
    have sameFactory : (r.setSlot name slot).scope.factory tag = r.scope.factory tag := rfl
    rw [elaborate, elaborate, sameFactory, ih apart]

end Target

/-- A schema with one required property. -/
def Schema.holding (name key : String) (type : TypeExpr) : Schema := ⟨name, [⟨key, type, false⟩]⟩

theorem Schema.elaborate_holding {key : String} (declared : key ≠ attrsKey) (scope : Scope ω) (name : String)
    (type : TypeExpr) : (holding name key type).elaborate scope =
      ((type.elaborate scope).mapError (.inProperty name key)).map fun shape =>
        Shape.strict (some name) [(key, shape)] := by
  have isDeclared : Property.isAttrs ⟨key, type, false⟩ = false := decide_eq_false declared
  have plain : declaresAttrs [(⟨key, type, false⟩ : Property TypeExpr)] = false := by
    simp only [declaresAttrs, List.any_cons, List.any_nil, isDeclared, Bool.or_self]
  have kept : ¬(key = attrsKey ∨ false ≠ false) := not_or.mpr ⟨declared, not_not.mpr rfl⟩
  simp only [elaborate, holding, assemble, isDeclared, plain, TypeExpr.elaborateProps, if_neg kept, List.filter_cons,
    List.filter_nil]
  cases type.elaborate scope <;> rfl

namespace Shape

/-- A value in a property is decoded as it is by itself, below its key. -/
theorem decode_holding {s : Shape ω} (composed : s.Composed) (named : s.name ≠ "") {name : String} (rooted : name ≠ "")
    (key : String) (input : Json) : (strict (some name) [(key, s)]).decode (.obj [(key, input)]) =
      ((s.decode input).map fun d => .obj [(key, d)]).mapError (.reroot s.name (name ++ "." ++ key)) := by
  have root : (Position.top name).path ≠ "" := rooted
  have moved : s.validate input (.field (.top name) key) =
      (s.decode input).mapError (.reroot s.name (name ++ "." ++ key)) :=
    composed.independent.validate_key named root (.field key)
  have part : validateProps false [(key, s)] [(key, input)] (.top name) =
      Findings.cons (((s.decode input).mapError (.reroot s.name (name ++ "." ++ key))).map fun d => (key, d))
        (.ok .none) := by
    simp only [validateProps, Fields.get?, if_true, moved]
  have whole : (strict (some name) [(key, s)]).decode (.obj [(key, input)]) =
      Findings.finish (fun decoded => .obj (rebuild [(key, input)] decoded))
        (validateProps false [(key, s)] [(key, input)] (.top name)) := by
    rw [decode, strict, validate, Option.getD_some, Shape.name]
  rw [whole, part]
  cases decoded : s.decode input with
  | ok d => simp [Findings.cons, Findings.none, Findings.finish, Except.map, Except.mapError, rebuild, Fields.last?]
  | error f => cases f with
    | fatal e => rfl
    | invalid found =>
      -- Only here it matters that a rejection says something: an empty one would be forgotten.
      have nonempty : found ≠ [] := composed.reporting _ _ found decoded
      simp [Findings.cons, Findings.none, Findings.finish, Except.map, Except.mapError, Failure.onMismatches, nonempty]

theorem encode_holding (s : Shape ω) (name key : String) (d : Decoded ω) :
    (strict (some name) [(key, s)]).encode (.obj [(key, d)]) = .obj [(key, s.encode d)] := by
  simp [strict, encode, encodeProp]

end Shape

namespace Registry

variable {r after : Registry ω} {target : Target} {type : TypeExpr} {name key : String}

/-- A holder is registered exactly when its target is resolved, and an error is told in the
property. -/
theorem registerSchema_holding (writes : target.Writes type) (free : r.Free name) (apart : target.base ≠ name)
    (declared : key ≠ attrsKey) : (r.registerSchema (.holding name key type)).2 =
      ((r.resolveTarget target).mapError (.inProperty name key)).map fun shape =>
        Shape.strict (some name) [(key, shape)] := by
  obtain ⟨wasPending, started⟩ : ∃ wasPending, r.start name = .ok (r.setSlot name .resolving, wasPending) :=
    start_of_free free
  have startedSchema : r.start (Schema.holding name key type).name = .ok (r.setSlot name .resolving, wasPending) := started
  rw [registerSchema_of_start startedSchema, Schema.elaborate_holding declared, writes.elaborate_eq,
    Target.elaborate_setSlot apart]
  rfl

/-- What the target and the new name stand for once the schema is registered. -/
theorem resolveTarget_of_holding (writes : target.Writes type) (free : r.Free name) (apart : target.base ≠ name)
    (declared : key ≠ attrsKey) (done : r.register (.schema (.holding name key type)) = (after, .ok ())) :
    ∃ shape, r.resolveTarget target = .ok shape ∧ after.resolveTarget target = .ok shape ∧
      after.resolveTarget (.named name) = .ok (.strict (some name) [(key, shape)]) := by
  obtain ⟨holder, registered⟩ := registerSchema_of_register done
  have outcome : (r.registerSchema (.holding name key type)).2 = .ok holder := congrArg Prod.snd registered
  rw [registerSchema_holding writes free apart declared] at outcome
  obtain ⟨shape, found, rfl⟩ := except_map_eq_ok_iff.mp outcome
  have resolved : r.resolveTarget target = .ok shape := mapError_eq_ok_iff.mp found
  obtain ⟨_, _, same⟩ := registerSchema_eq_ok registered
  have unmoved : after.resolveTarget target = r.resolveTarget target := by
    rw [same]
    exact Target.elaborate_setSlot apart r _
  have known : ∃ attrs, after.slot? name = some (.resolved (.strict (some name) [(key, shape)]) attrs) := by
    rw [same]
    exact ⟨_, (slot?_setSlot r name name _).trans (if_pos rfl)⟩
  exact ⟨shape, resolved, unmoved.trans resolved, resolve_eq_ok_iff.mpr known⟩

end Registry

namespace Decoder

variable {decoder : Decoder ω} {target : Target} {s : Shape ω} {name key : String}

/-- A holder accepts what its target accepts, and reports it one step further in. -/
theorem validate_holding (resolved : decoder.registry.resolveTarget target = .ok s)
    (holder : decoder.registry.resolveTarget (.named name) = .ok (.strict (some name) [(key, s)]))
    (composed : s.Composed) (named : s.name ≠ "") (rooted : name ≠ "") (input : Json) :
    decoder.validate (.named name) (.obj [(key, input)]) = (decoder.validate target input).map fun result =>
      (result.map fun d => .obj [(key, d)]).mapError (List.map (.reroot s.name (name ++ "." ++ key))) := by
  have known : decoder.resolve target = .ok s := mapError_eq_ok_iff.mpr resolved
  have knownHolder : decoder.resolve (.named name) = .ok (.strict (some name) [(key, s)]) :=
    mapError_eq_ok_iff.mpr holder
  rw [validate_of_resolve known, validate_of_resolve knownHolder, Shape.decode_holding composed named rooted]
  cases s.decode input with
  | ok d => rfl
  | error f => cases f <;> rfl

theorem encode_holding (resolved : decoder.registry.resolveTarget target = .ok s)
    (holder : decoder.registry.resolveTarget (.named name) = .ok (.strict (some name) [(key, s)])) (d : Decoded ω) :
    decoder.encode (.named name) (.obj [(key, d)]) = (decoder.encode target d).map fun out => .obj [(key, out)] := by
  have known : decoder.resolve target = .ok s := mapError_eq_ok_iff.mpr resolved
  have knownHolder : decoder.resolve (.named name) = .ok (.strict (some name) [(key, s)]) :=
    mapError_eq_ok_iff.mpr holder
  rw [encode, encode, known, knownHolder]
  exact congrArg Except.ok (Shape.encode_holding s name key d)

/-- The lines of a target start with its own name. -/
theorem paths_of_rejected (resolved : decoder.registry.resolveTarget target = .ok s) (composed : s.Composed)
    (named : s.name ≠ "") {input : Json} {found : List Mismatch}
    (rejected : decoder.validate target input = .ok (.error found)) :
    found ≠ [] ∧ ∀ m ∈ found, ∃ rest, m.path = s.name ++ rest := by
  have known : decoder.resolve target = .ok s := mapError_eq_ok_iff.mpr resolved
  have invalid : s.decode input = .error (.invalid found) := by
    rw [validate_of_resolve known] at rejected
    split at rejected
    · cases rejected
    · rename_i listed invalid
      cases rejected
      exact invalid
    · cases rejected
  have top : (Position.top s.name).path ≠ "" := named
  exact ⟨composed.reporting _ _ found invalid, composed.independent.paths top invalid⟩

end Decoder

/-- A target stands for what the type that says the same stands for. It can be resolved exactly where a schema with one
required property of that type can be registered under a new name, and else the causes are the same. As the one and in
the property of the other the same values are taken, fail in a constructor, are decoded and are encoded; a rejection
lists the same mismatches, below the name of the target's shape and below the property. -/
theorem target_matches_property {r : Registry ω} {events : List (Event ω)} (reached : r.Reached events)
    (composed : ∀ event ∈ events, event.Of Shape.Composed) {target : Target} {type : TypeExpr}
    (writes : target.Writes type) {name key : String} (free : r.Free name) (rooted : name ≠ "")
    (apart : target.base ≠ name) (declared : key ≠ attrsKey) :
    (r.register (.schema (.holding name key type))).2.mapError SetupError.root =
      ((r.resolveTarget target).map fun _ => ()).mapError SetupError.root ∧
    ∀ after, r.register (.schema (.holding name key type)) = (after, .ok ()) →
      ∃ shape, r.resolveTarget target = .ok shape ∧ after.resolveTarget target = .ok shape ∧
        (∀ d, (Decoder.mk after).encode (.named name) (.obj [(key, d)]) =
          ((Decoder.mk after).encode target d).map fun out => .obj [(key, out)]) ∧
        (shape.name ≠ "" → ∀ input,
          (Decoder.mk after).validate (.named name) (.obj [(key, input)]) =
            ((Decoder.mk after).validate target input).map (fun result =>
              (result.map fun d => .obj [(key, d)]).mapError (List.map (.reroot shape.name (name ++ "." ++ key)))) ∧
          ∀ found, (Decoder.mk after).validate target input = .ok (.error found) →
            found ≠ [] ∧ ∀ m ∈ found, ∃ rest, m.path = shape.name ++ rest) := by
  constructor
  · have outcome : (r.register (.schema (.holding name key type))).2 =
        (r.registerSchema (.holding name key type)).2.map fun _ => () := rfl
    rw [outcome, Registry.registerSchema_holding writes free apart declared]
    cases r.resolveTarget target <;> rfl
  · intro after done
    obtain ⟨shape, before, later, holder⟩ := Registry.resolveTarget_of_holding writes free apart declared done
    have known : shape.Composed := target.of_elaborate (reached.of Shape.Composed.kind composed) shape before
    refine ⟨shape, before, later, Decoder.encode_holding later holder, fun named input => ?_⟩
    exact ⟨Decoder.validate_holding later holder known named rooted input,
      fun found => Decoder.paths_of_rejected later known named⟩

section Sheet

def cellSchema : Schema := ⟨"Cell", [⟨"text", .scalar .string, false⟩]⟩

def orNull (s : Shape Empty) : Shape Empty := .union [s, .null]

def cellEvents : List (Event Empty) := [.registered (.schema cellSchema), .factory "Maybe" orNull]

def cellRegistry : Registry Empty := ((Registry.empty.registerFactory "Maybe" orNull).register (.schema cellSchema)).1

theorem cellRegistry_reached : cellRegistry.Reached cellEvents := .register (.factory "Maybe" orNull .empty) rfl

theorem cellEvents_composed : ∀ event ∈ cellEvents, event.Of Shape.Composed := by
  have keeps : ∀ s : Shape Empty, s.Composed → (orNull s).Composed := fun s composed =>
    .union (List.forall_mem_cons.mpr ⟨composed, List.forall_mem_singleton.mpr (.scalar .null)⟩)
  exact List.forall_mem_cons.mpr ⟨trivial, List.forall_mem_singleton.mpr keeps⟩

def maybeCells : Target := .generic "Maybe" (.arrayOf (.named "Cell"))

def sheetSchema : Schema := .holding "Sheet" "cells" (.generic "Maybe" (.parameterized arrayTag (.reference "Cell")))

def sheetRegistry : Registry Empty := (cellRegistry.register (.schema sheetSchema)).1

theorem target_matches_property_sheet : cellRegistry.Free "Sheet" ∧
    (Decoder.mk sheetRegistry).validate maybeCells (.arr [.obj []]) =
      .ok (.error [⟨"Array<Cell> | null.0.text", "string", none⟩,
        ⟨"Array<Cell> | null", "null", some (.arr [.obj []])⟩]) ∧
    (Decoder.mk sheetRegistry).validate (.named "Sheet") (.obj [("cells", .arr [.obj []])]) =
      .ok (.error [⟨"Sheet.cells.0.text", "string", none⟩, ⟨"Sheet.cells", "null", some (.arr [.obj []])⟩]) := by
  have writes : maybeCells.Writes (.generic "Maybe" (.parameterized arrayTag (.reference "Cell"))) :=
    .generic "Maybe" (.parameterized arrayTag (.named "Cell"))
  have free : cellRegistry.Free "Sheet" := Or.inr rfl
  have declared : "cells" ≠ attrsKey := by decide
  obtain ⟨_, registered⟩ :=
    target_matches_property cellRegistry_reached cellEvents_composed writes free (by decide) (by decide) declared
  obtain ⟨shape, resolved, _, _, decodes⟩ := registered sheetRegistry rfl
  cases resolved
  have alone : (Decoder.mk sheetRegistry).validate maybeCells (.arr [.obj []]) =
      .ok (.error [⟨"Array<Cell> | null.0.text", "string", none⟩,
        ⟨"Array<Cell> | null", "null", some (.arr [.obj []])⟩]) := rfl
  obtain ⟨inside, _⟩ := decodes (by decide) (.arr [.obj []])
  rw [alone] at inside
  exact ⟨free, alone, inside⟩

end Sheet

end Conform
