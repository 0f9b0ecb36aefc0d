import Conform.Proofs.Announcement

namespace Conform

variable {ω : Type}

namespace Registry

/-- The definition is registered, and stands for what it would stand for if it were registered now. -/
def Holds (r : Registry ω) (d : Definition ω) : Prop :=
  ∃ entries, d.entries r.scope = .ok entries ∧
    ∀ name slot, Fields.get? name entries = some slot → r.slot? name = some slot

section Step

variable {r after other : Registry ω} {d : Definition ω}

theorem Holds.mono (holds : r.Holds d) (within : r.Within other) : other.Holds d := by
  obtain ⟨entries, made, slots⟩ := holds
  refine ⟨entries, within.entries made, fun name slot listed => ?_⟩
  obtain ⟨shape, attrs, rfl⟩ := Definition.resolved_of_mem_entries made (Fields.mem_of_get? listed)
  exact within.kept name shape attrs (slots name _ listed)

theorem holds_of_register (done : r.register d = (after, .ok ())) : after.Holds d := by
  obtain ⟨entries, made, _, slots⟩ := register_eq_ok done
  refine ⟨entries, (within_of_register done).entries made, fun name slot listed => ?_⟩
  rw [slots, listed]
  rfl

/-- A registration goes no further than any larger registry that holds the definition. -/
theorem Within.register (within : r.Within other) (done : r.register d = (after, .ok ())) (holds : other.Holds d) :
    after.Within other := by
  obtain ⟨entries, made, factories, slots⟩ := register_eq_ok done
  obtain ⟨entriesThere, madeThere, slotsThere⟩ := holds
  -- The definition mentions nothing but what both registries have, so it stands for the same in both.
  have same : entries = entriesThere := Except.ok.inj ((within.entries made).symm.trans madeThere)
  subst same
  refine ⟨fun name shape attrs found => ?_, within.factories.trans factories.symm⟩
  rw [slots] at found
  cases listed : Fields.get? name entries with
  | some slot =>
    rw [listed] at found
    cases found
    exact slotsThere name _ listed
  | none =>
    rw [listed] at found
    exact within.kept name shape attrs found

end Step

section Run

variable {r after other : Registry ω} {definitions : List (Definition ω)}

theorem registerEach_append {middle : Registry ω} {later : List (Definition ω)}
    (first : r.registerEach definitions = (middle, .ok ())) (second : middle.registerEach later = (after, .ok ())) :
    r.registerEach (definitions ++ later) = (after, .ok ()) := by
  induction definitions generalizing r with
  | nil =>
    cases first
    exact second
  | cons d rest ih =>
    obtain ⟨registered, step, further⟩ := registerEach_cons_eq_ok first
    simp only [List.cons_append, registerEach, step, ih further]

theorem within_of_registerEach (done : r.registerEach definitions = (after, .ok ())) : r.Within after := by
  induction definitions generalizing r with
  | nil =>
    cases done
    exact .refl _
  | cons d rest ih =>
    obtain ⟨registered, step, further⟩ := registerEach_cons_eq_ok done
    exact (within_of_register step).trans (ih further)

/-- After a run every definition of it holds, whatever was registered after it. -/
theorem holds_of_registerEach (done : r.registerEach definitions = (after, .ok ())) :
    ∀ d ∈ definitions, after.Holds d := by
  induction definitions generalizing r with
  | nil => simp
  | cons d rest ih =>
    obtain ⟨registered, step, further⟩ := registerEach_cons_eq_ok done
    have first : after.Holds d := (holds_of_register step).mono (within_of_registerEach further)
    exact List.forall_mem_cons.mpr ⟨first, ih further⟩

/-- A registry stays within a larger one that holds all that is registered in it: by induction on
the definitions. -/
theorem Within.registerEach (within : r.Within other) (done : r.registerEach definitions = (after, .ok ()))
    (holds : ∀ d ∈ definitions, other.Holds d) : after.Within other := by
  induction definitions generalizing r with
  | nil =>
    cases done
    exact within
  | cons d rest ih =>
    obtain ⟨registered, step, further⟩ := registerEach_cons_eq_ok done
    obtain ⟨here, later⟩ := List.forall_mem_cons.mp holds
    exact ih (within.register step here) further later

theorem slot?_registerEach (done : r.registerEach definitions = (after, .ok ())) (name : String) :
    (∃ shape attrs, after.slot? name = some (.resolved shape attrs)) ∨ after.slot? name = r.slot? name := by
  induction definitions generalizing r with
  | nil =>
    cases done
    exact Or.inr rfl
  | cons d rest ih =>
    obtain ⟨registered, step, further⟩ := registerEach_cons_eq_ok done
    rcases slot?_register step name with ⟨_, shape, attrs, found⟩ | same
    · exact Or.inl ⟨shape, attrs, (within_of_registerEach further).kept name shape attrs found⟩
    · rw [← same]
      exact ih further

end Run

section Order

variable {r one two : Registry ω} {definitions reordered : List (Definition ω)}

/-- Each of two orders registers nothing that the other does not. -/
theorem within_of_perm (perm : definitions.Perm reordered) (first : r.registerEach definitions = (one, .ok ()))
    (second : r.registerEach reordered = (two, .ok ())) : one.Within two :=
  (within_of_registerEach second).registerEach first fun d member =>
    holds_of_registerEach second d (perm.mem_iff.mp member)

/-- Definitions that succeed in both orders leave the same in every slot. -/
theorem slot?_of_perm (perm : definitions.Perm reordered) (first : r.registerEach definitions = (one, .ok ()))
    (second : r.registerEach reordered = (two, .ok ())) (name : String) : one.slot? name = two.slot? name := by
  have forth := within_of_perm perm first second
  have back := within_of_perm perm.symm second first
  rcases slot?_registerEach first name with ⟨shape, attrs, found⟩ | same
  · rw [found, forth.kept name shape attrs found]
  · rcases slot?_registerEach second name with ⟨shape, attrs, found⟩ | sameThere
    · rw [found, back.kept name shape attrs found]
    · rw [same, sameThere]

theorem scope_of_perm (perm : definitions.Perm reordered) (first : r.registerEach definitions = (one, .ok ()))
    (second : r.registerEach reordered = (two, .ok ())) : one.scope = two.scope := by
  have slots := slot?_of_perm perm first second
  have factories := (within_of_perm perm first second).factories
  have resolve : one.resolve = two.resolve := funext fun name => by rw [resolve, resolve, slots]
  have factory : one.factory = two.factory := funext fun tag => by rw [factory, factory, factories]
  rw [scope, scope, resolve, factory]

end Order

section Names

variable {r after : Registry ω}

/-- No name has two slots. -/
def Unambiguous (r : Registry ω) : Prop := (Fields.keys r.slots).Nodup

theorem Unambiguous.setSlot (unambiguous : r.Unambiguous) (name : String) (slot : Slot ω) :
    (r.setSlot name slot).Unambiguous := Fields.nodup_keys_insert unambiguous name slot

theorem Unambiguous.register {d : Definition ω} (unambiguous : r.Unambiguous) (done : r.register d = (after, .ok ())) :
    after.Unambiguous := by
  cases d with
  | schema s =>
    obtain ⟨shape, schemaDone⟩ := registerSchema_of_register done
    obtain ⟨_, _, rfl⟩ := registerSchema_eq_ok schemaDone
    exact unambiguous.setSlot _ _
  | ofClass c =>
    obtain ⟨_, registered, inner, schemaDone, _, rfl⟩ := registerClass_eq_ok done
    obtain ⟨_, _, rfl⟩ := registerSchema_eq_ok schemaDone
    exact ((unambiguous.setSlot _ _).setSlot _ _).setSlot _ _
  | shape name given =>
    obtain ⟨_, rfl⟩ := registerShape_eq_ok done
    exact unambiguous.setSlot _ _

/-- No name is listed twice. -/
theorem Reached.unambiguous {events : List (Event ω)} (reached : r.Reached events) : r.Unambiguous := by
  induction reached with
  | empty => exact List.nodup_nil
  | declare name _ ih =>
    unfold Registry.declare
    split
    · exact ih
    · exact ih.setSlot name .pending
  | register _ done ih => exact ih.register done
  | refuse _ refused ih =>
    rw [register_eq_error refused]
    exact ih
  | factory tag make _ ih => exact ih

/-- The names of a registry are those that are resolved. -/
theorem Unambiguous.mem_names_iff (unambiguous : r.Unambiguous) {name : String} :
    name ∈ r.names ↔ ∃ shape attrs, r.slot? name = some (.resolved shape attrs) := by
  simp only [names, slot?, Fields.get?_eq_some_iff unambiguous, List.mem_map, List.mem_filter]
  constructor
  · rintro ⟨⟨key, slot⟩, ⟨listed, resolved⟩, rfl⟩
    cases slot with
    | resolved shape attrs => exact ⟨shape, attrs, listed⟩
    | pending => simp [Slot.state] at resolved
    | resolving => simp [Slot.state] at resolved
  · rintro ⟨shape, attrs, listed⟩
    exact ⟨(name, .resolved shape attrs), ⟨listed, by simp [Slot.state]⟩, rfl⟩

theorem Unambiguous.nodup_names (unambiguous : r.Unambiguous) : r.names.Nodup :=
  unambiguous.sublist (List.filter_sublist.map _)

end Names

/-- All the definitions were registered, in the order of the list: one by one, in batches, or both. -/
inductive Registers : Registry ω → List (Definition ω) → Registry ω → Prop
  | done (r : Registry ω) : Registers r [] r
  | single {r registered after : Registry ω} {d : Definition ω} {rest : List (Definition ω)} :
      r.register d = (registered, .ok ()) → Registers registered rest after → Registers r (d :: rest) after
  | batch {r registered after : Registry ω} {definitions rest : List (Definition ω)} :
      r.registerAll definitions = (registered, .ok ()) → Registers registered rest after →
      Registers r (definitions ++ rest) after

theorem Registers.registerEach {r after : Registry ω} {definitions : List (Definition ω)}
    (registers : r.Registers definitions after) : r.registerEach definitions = (after, .ok ()) := by
  induction registers with
  | done r => rfl
  | single step _ ih => simp only [Registry.registerEach, step, ih]
  | @batch r registered after definitions rest batch _ ih =>
    have done : (r.registerEach definitions).2 = .ok () := registerAll_ok_iff_registerEach.mp (congrArg Prod.snd batch)
    rw [registerAll_of_ok done] at batch
    exact registerEach_append batch ih

/-- Two orders of the same definitions that both register make the same of every name: the shapes are
equal, so they validate, encode and recognize alike. The order of the names alone may differ. -/
theorem registration_order_irrelevant {r one two : Registry ω} {events : List (Event ω)}
    {definitions reordered : List (Definition ω)} (reached : r.Reached events) (perm : definitions.Perm reordered)
    (first : r.Registers definitions one) (second : r.Registers reordered two) :
    (∀ name, one.resolve name = two.resolve name ∧ one.synthesizesAttrs name = two.synthesizesAttrs name ∧
      one.state? name = two.state? name) ∧
    (∀ target, one.resolveTarget target = two.resolveTarget target) ∧ one.names.Perm two.names := by
  have slots := slot?_of_perm perm first.registerEach second.registerEach
  have scopes := scope_of_perm perm first.registerEach second.registerEach
  obtain ⟨_, _, reachedOne⟩ := reached.registerEach definitions
  obtain ⟨_, _, reachedTwo⟩ := reached.registerEach reordered
  rw [first.registerEach] at reachedOne
  rw [second.registerEach] at reachedTwo
  refine ⟨fun name => ⟨?_, ?_, ?_⟩, fun target => ?_, ?_⟩
  · rw [resolve, resolve, slots]
  · rw [synthesizesAttrs, synthesizesAttrs, slots]
  · rw [state?, state?, slots]
  · rw [resolveTarget, resolveTarget, scopes]
  · refine (List.perm_ext_iff_of_nodup reachedOne.unambiguous.nodup_names reachedTwo.unambiguous.nodup_names).mpr ?_
    intro name
    rw [reachedOne.unambiguous.mem_names_iff, reachedTwo.unambiguous.mem_names_iff, slots]

def seatFirst : List (Definition Json) := [.ofClass seatClass, .shape "Price" .number, .schema ticketSchema]

def priceFirst : List (Definition Json) := [.shape "Price" .number, .ofClass seatClass, .schema ticketSchema]

/-- One order is registered as a batch and the other definition by definition. -/
theorem registration_order_irrelevant_ticket : ∃ one two : Registry Json,
    Registry.empty.Registers seatFirst one ∧ Registry.empty.Registers priceFirst two ∧
    (∀ name, one.resolve name = two.resolve name) ∧
    one.names = ["Seat", "Place", "Price", "Ticket"] ∧ two.names = ["Price", "Seat", "Place", "Ticket"] := by
  have perm : seatFirst.Perm priceFirst := .swap _ _ _
  have first : Registry.empty.Registers seatFirst (Registry.empty.registerAll seatFirst).1 :=
    @Registers.batch _ _ _ _ seatFirst [] rfl (.done _)
  have second : Registry.empty.Registers priceFirst (Registry.empty.registerEach priceFirst).1 :=
    .single rfl (.single rfl (.single rfl (.done _)))
  obtain ⟨same, _, _⟩ := registration_order_irrelevant .empty perm first second
  exact ⟨_, _, first, second, fun name => (same name).1, rfl, rfl⟩

end Registry

end Conform
