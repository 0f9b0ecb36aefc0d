import Conform.Decoder
import Conform.Proofs.Expansion

namespace Conform

variable {ω : Type}

/-- A step of a setup that changed what the registry knows. -/
inductive Event (ω : Type) where
  | registered (definition : Definition ω)
  | factory (tag : String) (make : Factory ω)

namespace Registry

/-- The registries that the steps of a setup lead to, with the events on the way, the latest first.
A name may be declared and a registration may be refused at any time. -/
inductive Reached : Registry ω → List (Event ω) → Prop
  | empty : Reached .empty []
  | declare {r : Registry ω} {events : List (Event ω)} (name : String) :
      Reached r events → Reached (r.declare name) events
  | register {r after : Registry ω} {events : List (Event ω)} {d : Definition ω} :
      Reached r events → r.register d = (after, .ok ()) → Reached after (.registered d :: events)
  | refuse {r after : Registry ω} {events : List (Event ω)} {d : Definition ω} {e : SetupError} :
      Reached r events → r.register d = (after, .error e) → Reached after events
  | factory {r : Registry ω} {events : List (Event ω)} (tag : String) (make : Factory ω) :
      Reached r events → Reached (r.registerFactory tag make) (.factory tag make :: events)

/-- Announcing names is no event. -/
theorem Reached.declareAll {r : Registry ω} {events : List (Event ω)} (reached : Reached r events)
    (names : List String) : Reached (r.declareAll names) events := by
  induction names generalizing r with
  | nil => exact reached
  | cons name rest ih => exact ih (.declare name reached)

/-- The definitions that succeed are the events of a list, up to the one that fails. -/
theorem Reached.registerEach {r : Registry ω} {events : List (Event ω)} (reached : Reached r events)
    (definitions : List (Definition ω)) : ∃ done : List (Definition ω), (∀ d ∈ done, d ∈ definitions) ∧
      Reached (r.registerEach definitions).1 (done.map Event.registered ++ events) := by
  induction definitions generalizing r events with
  | nil => exact ⟨[], by simp, reached⟩
  | cons d rest ih =>
    cases step : r.register d with
    | mk after result => cases result with
      | error e =>
        refine ⟨[], by simp, ?_⟩
        simp only [Registry.registerEach, step]
        exact .refuse reached step
      | ok _ =>
        obtain ⟨done, known, further⟩ := ih (.register reached step)
        refine ⟨done ++ [d], ?_, ?_⟩
        · intro other member
          rcases List.mem_append.mp member with later | here
          · exact List.mem_cons_of_mem _ (known other later)
          · exact List.mem_cons.mpr (Or.inl (List.mem_singleton.mp here))
        · simp only [Registry.registerEach, step, List.map_append, List.map_singleton, List.append_assoc,
            List.singleton_append]
          exact further

/-- A batch is declared and registered by steps of their own, also where it stops at an error. -/
theorem Reached.registerAll {r : Registry ω} {events : List (Event ω)} (reached : Reached r events)
    (definitions : List (Definition ω)) : ∃ done : List (Definition ω), (∀ d ∈ done, d ∈ definitions) ∧
      Reached (r.registerAll definitions).1 (done.map Event.registered ++ events) :=
  (reached.declareAll _).registerEach definitions

theorem slot?_setSlot (r : Registry ω) (name other : String) (slot : Slot ω) :
    (r.setSlot name slot).slot? other = if other = name then some slot else r.slot? other :=
  Fields.get?_insert name other slot r.slots

theorem setSlot_setSlot (r : Registry ω) (name : String) (old new : Slot ω) :
    (r.setSlot name old).setSlot name new = r.setSlot name new := by
  simp only [setSlot, Fields.insert_insert]

theorem setSlot_of_slot? {r : Registry ω} {name : String} {slot : Slot ω} (found : r.slot? name = some slot) :
    r.setSlot name slot = r := by
  rw [setSlot, Fields.insert_of_get? found]

theorem removeSlot_setSlot {r : Registry ω} {name : String} (absent : r.slot? name = none) (slot : Slot ω) :
    (r.setSlot name slot).removeSlot name = r := by
  rw [setSlot, removeSlot, Fields.erase_insert_of_not_mem (Fields.get?_eq_none_iff.mp absent)]

/-- A registration starts where the name is only declared or not known, and can then be given up. -/
theorem start_eq_ok {r started : Registry ω} {name : String} {wasPending : Bool}
    (start : r.start name = .ok (started, wasPending)) :
    started = r.setSlot name .resolving ∧ (r.slot? name = some .pending ∨ r.slot? name = none) ∧
      started.giveUp name wasPending = r := by
  unfold Registry.start at start
  split at start
  · cases start
  · cases start
  · rename_i pending
    cases start
    exact ⟨rfl, Or.inl pending, by simp only [giveUp, if_true, setSlot_setSlot, setSlot_of_slot? pending]⟩
  · rename_i absent
    cases start
    exact ⟨rfl, Or.inr absent, by
      simp only [giveUp, Bool.false_eq_true, if_false, removeSlot_setSlot absent]⟩

theorem registerSchema_eq_error {r after : Registry ω} {s : Schema} {e : SetupError}
    (failed : r.registerSchema s = (after, .error e)) : after = r := by
  unfold registerSchema at failed
  split at failed
  · cases failed
    rfl
  · rename_i started wasPending start
    split at failed
    · cases failed
    · cases failed
      exact (start_eq_ok start).2.2

theorem registerClass_eq_error {r after : Registry ω} {c : ClassDefinition ω} {e : SetupError}
    (failed : r.registerClass c = (after, .error e)) : after = r := by
  unfold registerClass at failed
  split at failed
  · cases failed
    rfl
  · rename_i started wasPending start
    split at failed
    · cases failed
    · rename_i rest e' refused
      cases failed
      rw [registerSchema_eq_error refused]
      exact (start_eq_ok start).2.2

/-- A definition that fails leaves the registry as it was. -/
theorem register_eq_error {r after : Registry ω} {d : Definition ω} {e : SetupError}
    (failed : r.register d = (after, .error e)) : after = r := by
  cases d with
  | schema s =>
    obtain ⟨rfl, mapped⟩ := Prod.mk.inj failed
    exact registerSchema_eq_error (Prod.ext rfl (except_map_eq_error_iff.mp mapped))
  | ofClass c => exact registerClass_eq_error failed
  | shape name shape =>
    simp only [register, registerShape] at failed
    split at failed
    · cases failed
      rfl
    · cases failed

/-- A schema succeeds for a name that is free, with what it elaborates to while the name is
resolving. -/
theorem registerSchema_eq_ok {r after : Registry ω} {s : Schema} {shape : Shape ω}
    (done : r.registerSchema s = (after, .ok shape)) :
    (r.slot? s.name = some .pending ∨ r.slot? s.name = none) ∧
      s.elaborate (r.setSlot s.name .resolving).scope = .ok shape ∧
      after = r.setSlot s.name (.resolved shape (declaresAttrs s.props)) := by
  unfold registerSchema at done
  split at done
  · cases done
  · rename_i started wasPending start
    obtain ⟨rfl, unresolved, _⟩ := start_eq_ok start
    split at done
    · rename_i shape' elaborated
      cases done
      exact ⟨unresolved, elaborated, by rw [complete, setSlot_setSlot]⟩
    · cases done

/-- A class succeeds with its schema, which is registered under a name of its own while that of the
class is resolving. -/
theorem registerClass_eq_ok {r after : Registry ω} {c : ClassDefinition ω}
    (done : r.registerClass c = (after, .ok ())) :
    (r.slot? c.className = some .pending ∨ r.slot? c.className = none) ∧
      ∃ registered inner, (r.setSlot c.className .resolving).registerSchema c.schema = (registered, .ok inner) ∧
        c.schema.name ≠ c.className ∧
        after = registered.setSlot c.className (.resolved
          (.ofClass c.className inner (declaresAttrs c.schema.props) c.construct) (declaresAttrs c.schema.props)) := by
  unfold registerClass at done
  split at done
  · cases done
  · rename_i started wasPending start
    obtain ⟨rfl, unresolved, _⟩ := start_eq_ok start
    split at done
    · rename_i registered inner schemaDone
      cases done
      obtain ⟨free, _, equal⟩ := registerSchema_eq_ok schemaDone
      have different : c.schema.name ≠ c.className := by
        intro same
        simp only [same, slot?_setSlot, if_true, Option.some.injEq, reduceCtorEq, or_self] at free
      have flag : registered.synthesizesAttrs c.schema.name = declaresAttrs c.schema.props := by
        rw [equal, synthesizesAttrs, slot?_setSlot, if_pos rfl]
      refine ⟨unresolved, registered, inner, schemaDone, different, ?_⟩
      rw [complete, flag]
    · cases done

/-- A shape that is handed over is noted to add no reserved key. -/
theorem registerShape_eq_ok {r after : Registry ω} {name : String} {shape : Shape ω}
    (done : r.registerShape name shape = (after, .ok ())) :
    (r.slot? name = some .pending ∨ r.slot? name = none) ∧ after = r.setSlot name (.resolved shape false) := by
  unfold registerShape at done
  split at done
  · cases done
  · rename_i started wasPending start
    cases done
    obtain ⟨rfl, unresolved, _⟩ := start_eq_ok start
    exact ⟨unresolved, by rw [complete, setSlot_setSlot]⟩

theorem registerSchema_of_register {r after : Registry ω} {s : Schema}
    (done : r.register (.schema s) = (after, .ok ())) :
    ∃ shape, r.registerSchema s = (after, .ok shape) := by
  have outcome : (r.registerSchema s).2.map (fun _ => ()) = .ok () := congrArg Prod.snd done
  have same : (r.registerSchema s).1 = after := congrArg Prod.fst done
  obtain ⟨shape, registered, _⟩ := except_map_eq_ok_iff.mp outcome
  exact ⟨shape, Prod.ext same registered⟩

theorem not_resolved {r : Registry ω} {name : String}
    (unresolved : r.slot? name = some .pending ∨ r.slot? name = none) (shape : Shape ω) (attrs : Bool) :
    r.slot? name ≠ some (.resolved shape attrs) := by
  intro found
  simp [found] at unresolved

theorem slot?_setSlot_of_resolved {r : Registry ω} {name other : String} {shape : Shape ω} {attrs : Bool}
    (unresolved : ∀ shape attrs, r.slot? name ≠ some (.resolved shape attrs))
    (found : r.slot? other = some (.resolved shape attrs)) (slot : Slot ω) :
    (r.setSlot name slot).slot? other = some (.resolved shape attrs) := by
  have different : other ≠ name := by
    rintro rfl
    exact unresolved shape attrs found
  rw [slot?_setSlot, if_neg different, found]

theorem registerSchema_keeps {r after : Registry ω} {s : Schema} {inner : Shape ω}
    (done : r.registerSchema s = (after, .ok inner)) {name : String} {shape : Shape ω} {attrs : Bool}
    (found : r.slot? name = some (.resolved shape attrs)) : after.slot? name = some (.resolved shape attrs) := by
  obtain ⟨unresolved, _, rfl⟩ := registerSchema_eq_ok done
  exact slot?_setSlot_of_resolved (not_resolved unresolved) found _

/-- The schema of a class leaves the name of the class resolving. -/
theorem registerClass_resolving {r after : Registry ω} {c : ClassDefinition ω} {inner : Shape ω}
    (done : (r.setSlot c.className .resolving).registerSchema c.schema = (after, .ok inner))
    (different : c.schema.name ≠ c.className) : after.slot? c.className = some .resolving := by
  obtain ⟨_, _, rfl⟩ := registerSchema_eq_ok done
  rw [slot?_setSlot, if_neg different.symm, slot?_setSlot, if_pos rfl]

/-- A registered name keeps its shape. -/
theorem register_keeps {r after : Registry ω} {d : Definition ω} (done : r.register d = (after, .ok ()))
    {name : String} {shape : Shape ω} {attrs : Bool} (found : r.slot? name = some (.resolved shape attrs)) :
    after.slot? name = some (.resolved shape attrs) := by
  cases d with
  | schema s =>
    obtain ⟨inner, schemaDone⟩ := registerSchema_of_register done
    exact registerSchema_keeps schemaDone found
  | ofClass c =>
    obtain ⟨unresolved, registered, inner, schemaDone, different, rfl⟩ := registerClass_eq_ok done
    have started := slot?_setSlot_of_resolved (not_resolved unresolved) found .resolving
    refine slot?_setSlot_of_resolved (fun _ _ => ?_) (registerSchema_keeps schemaDone started) _
    simp [registerClass_resolving schemaDone different]
  | shape key given =>
    obtain ⟨unresolved, rfl⟩ := registerShape_eq_ok done
    exact slot?_setSlot_of_resolved (not_resolved unresolved) found _

theorem exists_resolved_of_contains {r : Registry ω} {name : String} (known : r.contains name = true) :
    ∃ shape attrs, r.slot? name = some (.resolved shape attrs) := by
  simp only [contains, state?, decide_eq_true_eq, Option.map_eq_some_iff] at known
  obtain ⟨slot, found, state⟩ := known
  cases slot with
  | resolved shape attrs => exact ⟨shape, attrs, found⟩
  | pending => cases state
  | resolving => cases state

theorem slot?_declare (r : Registry ω) (name other : String) :
    (r.declare name).slot? other = (r.slot? other).or (if other = name then some .pending else none) := by
  unfold declare
  split
  · rename_i slot held
    by_cases same : other = name
    · subst same
      simp [held]
    · simp [same]
  · rename_i absent
    rw [slot?_setSlot]
    by_cases same : other = name
    · subst same
      simp [absent]
    · simp [same]

/-- An announcement fills the missing slots and changes no other. -/
theorem slot?_declareAll (r : Registry ω) (names : List String) (other : String) :
    (r.declareAll names).slot? other = (r.slot? other).or (if other ∈ names then some .pending else none) := by
  induction names generalizing r with
  | nil => simp [declareAll]
  | cons name rest ih =>
    show ((r.declare name).declareAll rest).slot? other = _
    rw [ih, slot?_declare, Option.or_assoc]
    by_cases same : other = name <;> simp [same]

theorem factories_declareAll (r : Registry ω) (names : List String) :
    (r.declareAll names).factories = r.factories := by
  induction names generalizing r with
  | nil => rfl
  | cons name rest ih =>
    refine (ih (r.declare name)).trans ?_
    unfold declare
    split <;> rfl

theorem declare_keeps {r : Registry ω} (other : String) {name : String} {shape : Shape ω} {attrs : Bool}
    (found : r.slot? name = some (.resolved shape attrs)) :
    (r.declare other).slot? name = some (.resolved shape attrs) := by
  rw [slot?_declare, found]
  rfl

theorem registerEach_cons_eq_ok {r after : Registry ω} {d : Definition ω} {rest : List (Definition ω)}
    (done : r.registerEach (d :: rest) = (after, .ok ())) :
    ∃ registered, r.register d = (registered, .ok ()) ∧ registered.registerEach rest = (after, .ok ()) := by
  rw [registerEach] at done
  split at done
  · rename_i registered step
    exact ⟨registered, step, done⟩
  · cases done

/-- A class that was registered stands for its schema's shape, in whatever way the setup went on. -/
theorem Reached.of_class {r : Registry ω} {events : List (Event ω)} (reached : r.Reached events)
    {c : ClassDefinition ω} (member : .registered (.ofClass c) ∈ events) :
    ∃ inner scope, c.schema.elaborate scope = .ok inner ∧
      r.slot? c.schema.name = some (.resolved inner (declaresAttrs c.schema.props)) ∧
      r.slot? c.className = some (.resolved
        (.ofClass c.className inner (declaresAttrs c.schema.props) c.construct) (declaresAttrs c.schema.props)) := by
  induction reached with
  | empty => cases member
  | declare name _ ih =>
    obtain ⟨inner, scope, elaborated, schemaSlot, classSlot⟩ := ih member
    exact ⟨inner, scope, elaborated, declare_keeps name schemaSlot, declare_keeps name classSlot⟩
  | @register r after events d _ done ih =>
    rcases List.mem_cons.mp member with here | earlier
    · cases here
      obtain ⟨_, registered, inner, schemaDone, different, rfl⟩ := registerClass_eq_ok done
      obtain ⟨_, elaborated, equal⟩ := registerSchema_eq_ok schemaDone
      refine ⟨inner, _, elaborated, ?_, ?_⟩
      · rw [slot?_setSlot, if_neg different, equal, slot?_setSlot, if_pos rfl]
      · rw [slot?_setSlot, if_pos rfl]
    · obtain ⟨inner, scope, elaborated, schemaSlot, classSlot⟩ := ih earlier
      exact ⟨inner, scope, elaborated, register_keeps done schemaSlot, register_keeps done classSlot⟩
  | refuse _ failed ih =>
    rw [register_eq_error failed]
    exact ih member
  | factory tag make _ ih =>
    rcases List.mem_cons.mp member with here | earlier
    · cases here
    · exact ih earlier

end Registry

end Conform
