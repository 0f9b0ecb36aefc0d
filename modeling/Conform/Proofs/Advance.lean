import Mathlib.Logic.Relation
import Conform.Builtin
import Conform.Proofs.Entries
import Conform.Proofs.Setup

namespace Conform

variable {ω : Type}

/-- The way of a name: it is not known, then declared, then registered. -/
inductive Progress : Option EntryState → Option EntryState → Prop
  | declared : Progress none (some .pending)
  | registered : Progress (some .pending) (some .resolved)

namespace Progress

/-- A name that is not known, or declared only, can still be registered. -/
theorem to_resolved {state : Option EntryState} (unresolved : state = none ∨ state = some .pending) :
    Relation.ReflTransGen Progress state (some .resolved) := by
  rcases unresolved with rfl | rfl
  · exact .tail (.single .declared) .registered
  · exact .single .registered

/-- No way leads to a name that is being registered. -/
theorem eq_of_to_resolving {state : Option EntryState}
    (way : Relation.ReflTransGen Progress state (some .resolving)) : state = some .resolving := by
  cases way with
  | refl => rfl
  | tail _ last => cases last

end Progress

namespace Registry

/-- No registration is going on. -/
def Settled (r : Registry ω) : Prop := ∀ name, r.state? name ≠ some .resolving

/-- What stays of a registry in a later one, and how the rest may have changed. -/
structure Advances (before after : Registry ω) : Prop where
  states : ∀ name, Relation.ReflTransGen Progress (before.state? name) (after.state? name)
  kept : ∀ name shape attrs, before.slot? name = some (.resolved shape attrs) →
    after.slot? name = some (.resolved shape attrs)
  names : before.names.Sublist after.names

namespace Advances

variable {before middle after : Registry ω}

theorem refl (r : Registry ω) : Advances r r where
  states _ := .refl
  kept _ _ _ found := found
  names := List.Sublist.refl _

theorem trans (first : Advances before middle) (second : Advances middle after) : Advances before after where
  states name := (first.states name).trans (second.states name)
  kept name shape attrs found := second.kept name shape attrs (first.kept name shape attrs found)
  names := first.names.trans second.names

theorem settled (advances : Advances before after) (settled : before.Settled) : after.Settled := by
  intro name resolving
  have way := advances.states name
  rw [resolving] at way
  exact settled name (Progress.eq_of_to_resolving way)

end Advances

section Names

/-- A slot that does not hold a registered name can be filled without moving any registered one. -/
theorem names_sublist_setSlot {r : Registry ω} {name : String}
    (unresolved : ∀ shape attrs, r.slot? name ≠ some (.resolved shape attrs)) (slot : Slot ω) :
    r.names.Sublist (r.setSlot name slot).names := by
  obtain ⟨slots, factories⟩ := r
  refine List.Sublist.map _ ?_
  show List.Sublist _ ((Fields.insert name slot slots).filter _)
  induction slots with
  | nil => exact List.nil_sublist _
  | cons entry rest ih =>
    obtain ⟨key, old⟩ := entry
    by_cases same : key = name
    · subst same
      -- The slot is filled where it stands, and its name was not listed before.
      have open_ : old.state ≠ .resolved := by
        intro resolved
        cases old with
        | resolved shape attrs => exact unresolved shape attrs (by simp [slot?, Fields.get?])
        | pending => cases resolved
        | resolving => cases resolved
      rw [Fields.insert, if_pos rfl, List.filter_cons_of_neg (by simpa using open_)]
      exact (List.sublist_cons_self _ rest).filter _
    · have later : ∀ shape attrs, (⟨rest, factories⟩ : Registry ω).slot? name ≠ some (.resolved shape attrs) := by
        intro shape attrs found
        exact unresolved shape attrs (by simpa [slot?, Fields.get?, same] using found)
      have below := ih later
      rw [Fields.insert, if_neg same]
      by_cases registered : old.state = .resolved
      · rw [List.filter_cons_of_pos (by simpa using registered), List.filter_cons_of_pos (by simpa using registered)]
        exact below.cons_cons _
      · rw [List.filter_cons_of_neg (by simpa using registered), List.filter_cons_of_neg (by simpa using registered)]
        exact below

end Names

section Step

variable {r after : Registry ω}

theorem advances_declare (r : Registry ω) (name : String) : Advances r (r.declare name) := by
  unfold declare
  split
  · exact .refl r
  · rename_i absent
    have unresolved : ∀ shape attrs, r.slot? name ≠ some (.resolved shape attrs) := by simp [absent]
    refine ⟨fun other => ?_, fun other shape attrs found => ?_, names_sublist_setSlot unresolved _⟩
    · simp only [state?, slot?_setSlot]
      by_cases same : other = name
      · subst same
        simp only [absent, if_true]
        exact .single .declared
      · simp only [same, if_false]
        exact .refl
    · exact slot?_setSlot_of_resolved unresolved found _

/-- What a successful registration leaves under a name: the name was free and is registered now, or
the definition does not take it. -/
theorem slot?_register {d : Definition ω} (done : r.register d = (after, .ok ())) (name : String) :
    (r.Free name ∧ ∃ shape attrs, after.slot? name = some (.resolved shape attrs)) ∨
      after.slot? name = r.slot? name := by
  obtain ⟨entries, made, _, slots⟩ := register_eq_ok done
  have fits : r.Fits d := register_ok_iff_fits.mp (congrArg Prod.snd done)
  rw [slots]
  cases listed : Fields.get? name entries with
  | none => exact Or.inr rfl
  | some slot =>
    have member := Fields.mem_of_get? listed
    have taken : name ∈ d.names := by
      rw [← Definition.keys_entries made]
      exact Fields.mem_keys_of_mem member
    obtain ⟨shape, attrs, rfl⟩ := Definition.resolved_of_mem_entries made member
    exact Or.inl ⟨fits.free name taken, shape, attrs, rfl⟩

theorem names_sublist_register {d : Definition ω} (done : r.register d = (after, .ok ())) :
    r.names.Sublist after.names := by
  cases d with
  | schema s =>
    obtain ⟨inner, schemaDone⟩ := registerSchema_of_register done
    obtain ⟨free, _, rfl⟩ := registerSchema_eq_ok schemaDone
    exact names_sublist_setSlot (not_resolved free) _
  | ofClass c =>
    obtain ⟨free, registered, inner, schemaDone, different, rfl⟩ := registerClass_eq_ok done
    have resolving := registerClass_resolving schemaDone different
    obtain ⟨freeSchema, _, rfl⟩ := registerSchema_eq_ok schemaDone
    have started := names_sublist_setSlot (not_resolved free) .resolving
    have inside := names_sublist_setSlot (not_resolved freeSchema) (.resolved inner (declaresAttrs c.schema.props))
    exact (started.trans inside).trans (names_sublist_setSlot (by simp [resolving]) _)
  | shape key given =>
    obtain ⟨free, rfl⟩ := registerShape_eq_ok done
    exact names_sublist_setSlot (not_resolved free) _

/-- A definition moves its own names forward or, when it fails, none. -/
theorem advances_register (r : Registry ω) (d : Definition ω) : Advances r (r.register d).1 := by
  cases outcome : (r.register d).2 with
  | error e =>
    have unchanged : (r.register d).1 = r := register_eq_error (Prod.ext rfl outcome)
    rw [unchanged]
    exact .refl r
  | ok _ =>
    have done : r.register d = ((r.register d).1, .ok ()) := Prod.ext rfl outcome
    refine ⟨fun name => ?_, fun name shape attrs found => register_keeps done found, names_sublist_register done⟩
    rcases slot?_register done name with ⟨free, shape, attrs, registered⟩ | same
    · have unresolved : r.state? name = none ∨ r.state? name = some .pending := by
        rcases free with pending | absent
        · exact Or.inr (by rw [state?, pending]; rfl)
        · exact Or.inl (by rw [state?, absent]; rfl)
      have resolved : (r.register d).1.state? name = some .resolved := by rw [state?, registered]; rfl
      rw [resolved]
      exact Progress.to_resolved unresolved
    · rw [state?, state?, same]

theorem advances_of_register {d : Definition ω} {outcome : Except SetupError Unit}
    (step : r.register d = (after, outcome)) : Advances r after := by
  have advances := advances_register r d
  rwa [step] at advances

theorem advances_declareAll (r : Registry ω) (names : List String) : Advances r (r.declareAll names) := by
  induction names generalizing r with
  | nil => exact .refl r
  | cons name rest ih => exact (advances_declare r name).trans (ih (r.declare name))

/-- One definition after the other only moves forward: by induction on the list. -/
theorem advances_registerEach (r : Registry ω) (definitions : List (Definition ω)) :
    Advances r (r.registerEach definitions).1 := by
  induction definitions generalizing r with
  | nil => exact .refl r
  | cons d rest ih =>
    rw [registerEach]
    split
    · rename_i registered done
      exact (advances_of_register done).trans (ih registered)
    · rename_i failed e refused
      exact advances_of_register refused

theorem advances_registerAll (r : Registry ω) (definitions : List (Definition ω)) :
    Advances r (r.registerAll definitions).1 :=
  (advances_declareAll r _).trans (advances_registerEach _ definitions)

theorem advances_registerFactory (r : Registry ω) (tag : String) (factory : Factory ω) :
    Advances r (r.registerFactory tag factory) where
  states _ := .refl
  kept _ _ _ found := found
  names := List.Sublist.refl _

theorem advances_perform (r : Registry ω) (operation : Operation ω) : Advances r (r.perform operation).1 := by
  cases operation with
  | declareAll names => exact advances_declareAll r names
  | register d => exact advances_register r d
  | registerAll definitions => exact advances_registerAll r definitions
  | registerFactory tag factory => exact advances_registerFactory r tag factory

theorem advances_run (r : Registry ω) (operations : List (Operation ω)) : Advances r (r.run operations).1 := by
  induction operations generalizing r with
  | nil => exact .refl r
  | cons operation rest ih => exact (advances_perform r operation).trans (ih (r.perform operation).1)

theorem run_append (r : Registry ω) (operations later : List (Operation ω)) :
    (r.run (operations ++ later)).1 = ((r.run operations).1.run later).1 := by
  induction operations generalizing r with
  | nil => rfl
  | cons operation rest ih => exact ih (r.perform operation).1

theorem empty_settled : (Registry.empty : Registry ω).Settled := by
  intro name resolving
  cases resolving

/-- No name is left resolving between two operations. -/
theorem Reached.settled {events : List (Event ω)} (reached : r.Reached events) : r.Settled := by
  induction reached with
  | empty => exact empty_settled
  | declare name _ ih => exact (advances_declare _ name).settled ih
  | register _ done ih => exact (advances_of_register done).settled ih
  | refuse _ refused ih => exact (advances_of_register refused).settled ih
  | factory tag make _ ih => exact (advances_registerFactory _ tag make).settled ih

/-- Where no registration is going on, no lookup meets a cycle. -/
theorem Settled.resolveTarget_ne_cyclic (settled : r.Settled) (target : Target) (name : String) :
    r.resolveTarget target ≠ .error (.cyclicDefinition name) := by
  induction target with
  | named other =>
    intro failed
    simp only [resolveTarget, Target.elaborate, scope, resolve] at failed
    split at failed
    · cases failed
    · rename_i resolving
      exact settled other (by rw [state?, resolving]; rfl)
    · cases failed
    · cases failed
  | generic tag argument ih =>
    intro failed
    simp only [resolveTarget, Target.elaborate, scope] at failed ih
    unfold factory at failed
    split at failed
    · exact ih (except_map_eq_error_iff.mp failed)
    · cases failed

end Step

/-- Whatever is done to a new registry, no registration is left half done, and from each moment of the
setup to each later one names only move on, what is registered stays as it is, and the registered names
keep their order. -/
theorem setup_moves_forward {start : Registry ω} (new : start = .empty ∨ start = Builtin.registry)
    (operations later : List (Operation ω)) :
    (start.run operations).1.Settled ∧
      (∀ target name, (start.run operations).1.resolveTarget target ≠ .error (.cyclicDefinition name)) ∧
      Advances (start.run operations).1 (start.run (operations ++ later)).1 := by
  have startSettled : start.Settled := by
    rcases new with isEmpty | isStock
    · rw [isEmpty]
      exact empty_settled
    · rw [isStock]
      exact (advances_registerAll .empty Builtin.definitions).settled empty_settled
  have settled := (advances_run start operations).settled startSettled
  refine ⟨settled, settled.resolveTarget_ne_cyclic, ?_⟩
  rw [run_append]
  exact advances_run _ later

def cardSchema : Schema := ⟨"Card", [⟨"tags", .generic arrayTag (.scalar .string), false⟩]⟩

def deckSchema : Schema := ⟨"Deck", [⟨"cards", .array (.reference "Card"), false⟩]⟩

/-- A batch in the wrong order, a retry of what it left out, and the factory put in place of another. -/
def deckSetup : List (Operation Json) :=
  [.registerAll [.schema deckSchema, .schema cardSchema], .register (.schema cardSchema), .registerFactory arrayTag id]

def deckRetry : List (Operation Json) := [.registerAll [.schema cardSchema], .register (.schema deckSchema)]

theorem setup_moves_forward_deck :
    (Registry.empty.run (deckSetup ++ deckRetry)).2 =
      [.error (.inProperty "Deck" "cards" (.forwardReference "Card")), .ok (), .ok (),
        .error (.duplicateName "Card"), .ok ()] ∧
    (Registry.empty.run deckSetup).1.Settled ∧
    (∀ target name, (Registry.empty.run deckSetup).1.resolveTarget target ≠ .error (.cyclicDefinition name)) ∧
    Advances (Registry.empty.run deckSetup).1 (Registry.empty.run (deckSetup ++ deckRetry)).1 :=
  ⟨rfl, setup_moves_forward (Or.inl rfl) deckSetup deckRetry⟩

end Registry

end Conform
