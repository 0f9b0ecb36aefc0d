import Conform.Proofs.Mentions
import Conform.Proofs.Reached

namespace Conform

variable {ω : Type}

/-- The slots that a definition fills once it is registered. -/
def Definition.entries (scope : Scope ω) : Definition ω → Except SetupError (Fields (Slot ω))
  | schema s => (s.elaborate scope).map fun shape => [(s.name, .resolved shape (declaresAttrs s.props))]
  | ofClass c => (c.schema.elaborate scope).map fun inner =>
      let attrs := declaresAttrs c.schema.props
      [(c.className, .resolved (.ofClass c.className inner attrs c.construct) attrs),
        (c.schema.name, .resolved inner attrs)]
  | shape name given => .ok [(name, .resolved given false)]

/-- A definition makes entries for its names, in their order. -/
theorem Definition.keys_entries {scope : Scope ω} {d : Definition ω} {entries : Fields (Slot ω)}
    (made : d.entries scope = .ok entries) : Fields.keys entries = d.names := by
  cases d with
  | schema s =>
    obtain ⟨shape, _, rfl⟩ := except_map_eq_ok_iff.mp made
    rfl
  | ofClass c =>
    obtain ⟨inner, _, rfl⟩ := except_map_eq_ok_iff.mp made
    rfl
  | shape name given =>
    cases made
    rfl

theorem Definition.resolved_of_mem_entries {scope : Scope ω} {d : Definition ω} {entries : Fields (Slot ω)}
    (made : d.entries scope = .ok entries) {name : String} {slot : Slot ω} (listed : (name, slot) ∈ entries) :
    ∃ shape attrs, slot = .resolved shape attrs := by
  cases d with
  | schema s =>
    obtain ⟨shape, _, rfl⟩ := except_map_eq_ok_iff.mp made
    cases List.mem_singleton.mp listed
    exact ⟨_, _, rfl⟩
  | ofClass c =>
    obtain ⟨inner, _, rfl⟩ := except_map_eq_ok_iff.mp made
    rcases List.mem_cons.mp listed with here | later
    · cases here
      exact ⟨_, _, rfl⟩
    · cases List.mem_singleton.mp later
      exact ⟨_, _, rfl⟩
  | shape key given =>
    cases made
    cases List.mem_singleton.mp listed
    exact ⟨_, _, rfl⟩

namespace Registry

theorem resolve_eq_ok_iff {r : Registry ω} {name : String} {shape : Shape ω} :
    r.resolve name = .ok shape ↔ ∃ attrs, r.slot? name = some (.resolved shape attrs) := by
  unfold resolve
  constructor
  · intro resolved
    split at resolved
    · rename_i found
      cases resolved
      exact ⟨_, found⟩
    all_goals cases resolved
  · rintro ⟨attrs, found⟩
    rw [found]

/-- What one registry has registered, the other has registered alike, and their factories are the same. -/
structure Within (r other : Registry ω) : Prop where
  kept : ∀ name shape attrs, r.slot? name = some (.resolved shape attrs) →
    other.slot? name = some (.resolved shape attrs)
  factories : other.factories = r.factories

namespace Within

variable {r middle other : Registry ω}

theorem refl (r : Registry ω) : r.Within r := ⟨fun _ _ _ found => found, rfl⟩

theorem trans (first : r.Within middle) (second : middle.Within other) : r.Within other where
  kept name shape attrs found := second.kept name shape attrs (first.kept name shape attrs found)
  factories := second.factories.trans first.factories

/-- A schema that stands for a shape in the smaller registry stands for the same one in the larger. -/
theorem elaborate (within : r.Within other) {s : Schema} {shape : Shape ω}
    (elaborated : s.elaborate r.scope = .ok shape) : s.elaborate other.scope = .ok shape := by
  have sound := s.elaborate_ok_iff_sound.mp ⟨shape, elaborated⟩
  have same : s.elaborate other.scope = s.elaborate r.scope := by
    refine s.elaborate_congr (fun name mentioned => ?_) (fun tag => ?_)
    · obtain ⟨known, resolved⟩ : r.scope.Knows name := sound (.reference name) mentioned
      obtain ⟨attrs, found⟩ := resolve_eq_ok_iff.mp resolved
      have foundToo : other.resolve name = .ok known := resolve_eq_ok_iff.mpr ⟨attrs, within.kept _ _ _ found⟩
      exact foundToo.trans resolved.symm
    · simp only [scope, factory, within.factories]
  rw [same, elaborated]

/-- A definition makes the same entries in a larger registry. -/
theorem entries (within : r.Within other) {d : Definition ω} {entries : Fields (Slot ω)}
    (made : d.entries r.scope = .ok entries) : d.entries other.scope = .ok entries := by
  cases d with
  | schema s =>
    obtain ⟨shape, elaborated, rfl⟩ := except_map_eq_ok_iff.mp made
    exact except_map_eq_ok_iff.mpr ⟨shape, within.elaborate elaborated, rfl⟩
  | ofClass c =>
    obtain ⟨inner, elaborated, rfl⟩ := except_map_eq_ok_iff.mp made
    exact except_map_eq_ok_iff.mpr ⟨inner, within.elaborate elaborated, rfl⟩
  | shape name given => exact made

end Within

section Register

variable {r after : Registry ω}

/-- A name that is being registered counts for no more than it did before. -/
theorem within_of_resolving (r : Registry ω) (name : String) : (r.setSlot name .resolving).Within r where
  kept other shape attrs found := by
    rw [slot?_setSlot] at found
    split at found
    · cases found
    · exact found
  factories := rfl

/-- A successful registration fills the slots of the definition and leaves the others as they were. -/
theorem register_eq_ok {d : Definition ω} (done : r.register d = (after, .ok ())) :
    ∃ entries, d.entries r.scope = .ok entries ∧ after.factories = r.factories ∧
      ∀ name, after.slot? name = (Fields.get? name entries).or (r.slot? name) := by
  cases d with
  | schema s =>
    obtain ⟨shape, schemaDone⟩ := registerSchema_of_register done
    obtain ⟨_, elaborated, rfl⟩ := registerSchema_eq_ok schemaDone
    -- Elaborated while the name is resolving, the schema is elaborated before it just the same.
    have before := (within_of_resolving r s.name).elaborate elaborated
    refine ⟨_, except_map_eq_ok_iff.mpr ⟨shape, before, rfl⟩, rfl, fun name => ?_⟩
    rw [slot?_setSlot]
    by_cases same : s.name = name
    · simp [Fields.get?, same]
    · simp [Fields.get?, same, Ne.symm same]
  | ofClass c =>
    obtain ⟨_, registered, inner, schemaDone, _, rfl⟩ := registerClass_eq_ok done
    obtain ⟨_, elaborated, rfl⟩ := registerSchema_eq_ok schemaDone
    have during := (within_of_resolving (r.setSlot c.className .resolving) c.schema.name).elaborate elaborated
    have before := (within_of_resolving r c.className).elaborate during
    refine ⟨_, except_map_eq_ok_iff.mpr ⟨inner, before, rfl⟩, rfl, fun name => ?_⟩
    simp only [slot?_setSlot, Fields.get?]
    by_cases isClass : c.className = name
    · simp [isClass]
    · by_cases isSchema : c.schema.name = name
      · simp [isClass, Ne.symm isClass, isSchema]
      · simp [isClass, Ne.symm isClass, isSchema, Ne.symm isSchema]
  | shape key given =>
    obtain ⟨_, rfl⟩ := registerShape_eq_ok done
    refine ⟨_, rfl, rfl, fun name => ?_⟩
    rw [slot?_setSlot]
    by_cases same : key = name
    · simp [Fields.get?, same]
    · simp [Fields.get?, same, Ne.symm same]

theorem within_of_register {d : Definition ω} (done : r.register d = (after, .ok ())) : r.Within after where
  kept _ _ _ found := register_keeps done found
  factories := by
    obtain ⟨_, _, same, _⟩ := register_eq_ok done
    exact same

end Register

end Registry

end Conform
