import Conform.Proofs.Reached
import Conform.Proofs.Sound

namespace Conform

variable {ω : Type}

/-- What may be done to a registry while it is set up. -/
inductive Operation (ω : Type) where
  | declareAll (names : List String)
  | register (definition : Definition ω)
  | registerAll (definitions : List (Definition ω))
  | registerFactory (tag : String) (factory : Factory ω)

namespace Registry

/-- The registry after an operation, and the outcome of the operation. -/
def perform (r : Registry ω) : Operation ω → Registry ω × Except SetupError Unit
  | .declareAll names => (r.declareAll names, .ok ())
  | .register d => r.register d
  | .registerAll definitions => r.registerAll definitions
  | .registerFactory tag factory => (r.registerFactory tag factory, .ok ())

/-- The registry after a setup, and the outcomes of its operations. One that fails does not end it. -/
def run (r : Registry ω) : List (Operation ω) → Registry ω × List (Except SetupError Unit)
  | [] => (r, [])
  | operation :: rest =>
    let (after, outcome) := r.perform operation
    let (last, outcomes) := after.run rest
    (last, outcome :: outcomes)

/-- A name that is not known, or no more than declared. -/
def Free (r : Registry ω) (name : String) : Prop := r.slot? name = some .pending ∨ r.slot? name = none

/-- What a definition asks of a registry: the names that it takes are free, and the types of its
schema mention nothing but what is there. -/
def Fits (r : Registry ω) : Definition ω → Prop
  | .schema s => r.Free s.name ∧ s.Sound r.scope.Knows r.scope.Makes
  | .ofClass c => r.Free c.className ∧ r.Free c.schema.name ∧ c.schema.name ≠ c.className ∧
      c.schema.Sound r.scope.Knows r.scope.Makes
  | .shape name _ => r.Free name

section Fits

variable {r : Registry ω}

theorem knows_iff {name : String} :
    r.scope.Knows name ↔ ∃ shape attrs, r.slot? name = some (.resolved shape attrs) := by
  unfold Scope.Knows
  simp only [scope, resolve]
  constructor
  · rintro ⟨shape, resolved⟩
    split at resolved
    · rename_i found
      exact ⟨_, _, found⟩
    all_goals cases resolved
  · rintro ⟨shape, attrs, found⟩
    exact ⟨shape, by simp only [found]⟩

theorem Free.not_knows {name : String} (free : r.Free name) : ¬r.scope.Knows name := by
  rintro known
  obtain ⟨shape, attrs, found⟩ := knows_iff.mp known
  exact not_resolved free shape attrs found

/-- A name whose registration goes on is as little known as it was. -/
theorem knows_setSlot_resolving {name : String} (free : r.Free name) (other : String) :
    (r.setSlot name .resolving).scope.Knows other ↔ r.scope.Knows other := by
  rw [knows_iff, knows_iff, slot?_setSlot]
  by_cases same : other = name
  · subst same
    have unknown : ¬∃ shape attrs, r.slot? other = some (.resolved shape attrs) :=
      fun ⟨shape, attrs, found⟩ => not_resolved free shape attrs found
    exact iff_of_false (by simp) unknown
  · rw [if_neg same]

theorem knows_setSlot_resolved (name other : String) (shape : Shape ω) (attrs : Bool) :
    (r.setSlot name (.resolved shape attrs)).scope.Knows other ↔ other = name ∨ r.scope.Knows other := by
  rw [knows_iff, knows_iff, slot?_setSlot]
  by_cases same : other = name
  · simp [same]
  · simp [same]

theorem makes_setSlot (name : String) (slot : Slot ω) : (r.setSlot name slot).scope.Makes = r.scope.Makes := rfl

theorem start_of_free {name : String} (free : r.Free name) :
    ∃ wasPending, r.start name = .ok (r.setSlot name .resolving, wasPending) := by
  rcases free with pending | absent
  · exact ⟨true, by simp only [start, pending]⟩
  · exact ⟨false, by simp only [start, absent]⟩

/-- Starting a free name makes no schema sound or unsound. -/
theorem sound_resolving_iff {name : String} (free : r.Free name) (s : Schema) :
    s.Sound (r.setSlot name .resolving).scope.Knows (r.setSlot name .resolving).scope.Makes ↔
      s.Sound r.scope.Knows r.scope.Makes := by
  have same : (r.setSlot name .resolving).scope.Knows = r.scope.Knows :=
    funext fun other => propext (knows_setSlot_resolving free other)
  rw [same, makes_setSlot]

/-- A schema succeeds exactly when its name is free and it is sound. -/
theorem registerSchema_ok_iff {s : Schema} : (∃ shape, (r.registerSchema s).2 = .ok shape) ↔
    r.Free s.name ∧ s.Sound r.scope.Knows r.scope.Makes := by
  constructor
  · rintro ⟨shape, done⟩
    obtain ⟨free, elaborated, _⟩ := registerSchema_eq_ok (Prod.ext rfl done)
    have sound := s.elaborate_ok_iff_sound.mp ⟨shape, elaborated⟩
    exact ⟨free, (sound_resolving_iff free s).mp sound⟩
  · rintro ⟨free, sound⟩
    obtain ⟨wasPending, started⟩ := start_of_free free
    obtain ⟨shape, elaborated⟩ := s.elaborate_ok_iff_sound.mpr ((sound_resolving_iff free s).mpr sound)
    exact ⟨shape, by simp only [registerSchema, started, elaborated]⟩

theorem free_setSlot_resolving_iff {name other : String} :
    (r.setSlot name .resolving).Free other ↔ other ≠ name ∧ r.Free other := by
  unfold Free
  rw [slot?_setSlot]
  by_cases same : other = name
  · simp [same]
  · simp [same]

/-- A class succeeds exactly when it fits: both names are free and different, and its schema is
sound. -/
theorem registerClass_ok_iff {c : ClassDefinition ω} : (r.registerClass c).2 = .ok () ↔ r.Fits (.ofClass c) := by
  constructor
  · intro done
    obtain ⟨free, registered, inner, schemaDone, different, _⟩ := registerClass_eq_ok (Prod.ext rfl done)
    have fits := registerSchema_ok_iff.mp ⟨inner, congrArg Prod.snd schemaDone⟩
    have freeSchema := (free_setSlot_resolving_iff.mp fits.1).2
    exact ⟨free, freeSchema, different, (sound_resolving_iff free c.schema).mp fits.2⟩
  · rintro ⟨free, freeSchema, different, sound⟩
    obtain ⟨wasPending, started⟩ := start_of_free free
    have fits : (r.setSlot c.className .resolving).Free c.schema.name :=
      free_setSlot_resolving_iff.mpr ⟨different, freeSchema⟩
    obtain ⟨inner, schemaDone⟩ := registerSchema_ok_iff.mpr ⟨fits, (sound_resolving_iff free c.schema).mpr sound⟩
    cases result : (r.setSlot c.className .resolving).registerSchema c.schema with
    | mk registered outcome =>
      rw [result] at schemaDone
      cases schemaDone
      simp only [registerClass, started, result]

theorem Fits.free {d : Definition ω} (fits : r.Fits d) : ∀ name ∈ d.names, r.Free name := by
  cases d with
  | schema s => exact List.forall_mem_singleton.mpr fits.1
  | ofClass c => exact List.forall_mem_cons.mpr ⟨fits.1, List.forall_mem_singleton.mpr fits.2.1⟩
  | shape name given => exact List.forall_mem_singleton.mpr fits

/-- A definition is registered exactly where it fits. -/
theorem register_ok_iff_fits {d : Definition ω} : (r.register d).2 = .ok () ↔ r.Fits d := by
  cases d with
  | schema s =>
    show (r.registerSchema s).2.map (fun _ => ()) = .ok () ↔ r.Free s.name ∧ s.Sound r.scope.Knows r.scope.Makes
    rw [except_map_eq_ok_iff, ← registerSchema_ok_iff]
    simp
  | ofClass c => exact registerClass_ok_iff
  | shape name shape =>
    constructor
    · intro done
      exact (registerShape_eq_ok (Prod.ext rfl done)).1
    · intro free
      obtain ⟨wasPending, started⟩ := start_of_free free
      simp only [register, registerShape, started]

end Fits

/-- A definition is registered where it fits. Where it does not, the registry stays as it was, and so
does everything that the setup goes on with. -/
theorem register_atomic (r : Registry ω) (d : Definition ω) :
    ((r.register d).2 = .ok () ↔ r.Fits d) ∧
      ∀ e, (r.register d).2 = .error e →
        (r.register d).1 = r ∧ ∀ later : List (Operation ω), (r.register d).1.run later = r.run later := by
  refine ⟨register_ok_iff_fits, fun e failed => ?_⟩
  have unchanged : (r.register d).1 = r := register_eq_error (Prod.ext rfl failed)
  exact ⟨unchanged, fun later => by rw [unchanged]⟩

/-- A class whose schema refers back to it. -/
def personClass : ClassDefinition Json where
  className := "Person"
  schema := ⟨"Identity", [⟨"name", .scalar .string, false⟩, ⟨"friends", .array (.reference "Person"), true⟩]⟩
  construct raw := .ok (.made raw)

def announced : Registry Json := Registry.empty.declareAll ["Person", "Pet"]

theorem register_atomic_person :
    (announced.register (.ofClass personClass)).2 =
      .error (.inProperty "Identity" "friends" (.cyclicDefinition "Person")) ∧
    ¬announced.Fits (.ofClass personClass) ∧ (announced.register (.ofClass personClass)).1 = announced ∧
    ∀ later : List (Operation Json), (announced.register (.ofClass personClass)).1.run later = announced.run later := by
  have refused : (announced.register (.ofClass personClass)).2 =
      .error (.inProperty "Identity" "friends" (.cyclicDefinition "Person")) := rfl
  obtain ⟨fits, unchanged⟩ := register_atomic announced (.ofClass personClass)
  refine ⟨refused, fun fitting => ?_, unchanged _ refused⟩
  have accepted := fits.mpr fitting
  rw [refused] at accepted
  cases accepted

end Registry

end Conform
