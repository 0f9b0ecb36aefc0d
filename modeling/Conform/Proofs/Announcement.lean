import Conform.Proofs.Advance

namespace Conform

variable {ω : Type}

/-- What an error says once names were announced: a name that was not known at all is now known, but
not registered yet. -/
def SetupError.announced (names : List String) : SetupError → SetupError
  | unknownType name => if name ∈ names then forwardReference name else unknownType name
  | inProperty context property cause => inProperty context property (announced names cause)
  | e => e

theorem SetupError.ofLookups_announced (names : List String) : OfLookups (announced names) where
  emptySchema _ := rfl
  illegalType _ := rfl
  inProperty _ _ _ := rfl

namespace Registry

/-- A name that the registry has a slot for. -/
def HasSlot (r : Registry ω) (name : String) : Prop := r.slot? name ≠ none

/-- Names that are registered one after another, up to those that are due: the ones before have slots. -/
def Due (r : Registry ω) (names due : List String) : Prop :=
  ∃ passed, names = passed ++ due ∧ ∀ name ∈ passed, r.HasSlot name

section Declare

variable {r : Registry ω}

theorem hasSlot_setSlot {name other : String} {slot : Slot ω} :
    (r.setSlot name slot).HasSlot other ↔ other = name ∨ r.HasSlot other := by
  unfold HasSlot
  rw [slot?_setSlot]
  by_cases same : other = name <;> simp [same]

theorem declare_of_hasSlot {name : String} (held : r.HasSlot name) : r.declare name = r := by
  unfold declare
  split
  · rfl
  · rename_i absent
    exact absurd absent held

theorem declare_of_absent {name : String} (absent : r.slot? name = none) :
    r.declare name = r.setSlot name .pending := by
  simp only [declare, absent]

theorem declareAll_of_hasSlot {names : List String} (held : ∀ name ∈ names, r.HasSlot name) :
    r.declareAll names = r := by
  induction names with
  | nil => rfl
  | cons name rest ih =>
    obtain ⟨here, later⟩ := List.forall_mem_cons.mp held
    show (r.declare name).declareAll rest = r
    rw [declare_of_hasSlot here, ih later]

theorem declareAll_append (r : Registry ω) (names others : List String) :
    r.declareAll (names ++ others) = (r.declareAll names).declareAll others := List.foldl_append

/-- A slot that is there can be filled before or after an announcement: no slot moves. -/
theorem declareAll_setSlot {name : String} (held : r.HasSlot name) (slot : Slot ω) (names : List String) :
    (r.setSlot name slot).declareAll names = (r.declareAll names).setSlot name slot := by
  induction names generalizing r with
  | nil => rfl
  | cons other rest ih =>
    show ((r.setSlot name slot).declare other).declareAll rest = ((r.declare other).declareAll rest).setSlot name slot
    by_cases known : r.slot? other = none
    · have different : name ≠ other := by
        rintro rfl
        exact held known
      have absent : (r.setSlot name slot).slot? other = none := by
        rw [slot?_setSlot, if_neg different.symm, known]
      have inKeys : name ∈ Fields.keys r.slots := by
        by_contra missing
        exact held (Fields.get?_eq_none_iff.mpr missing)
      have swapped : (r.setSlot name slot).setSlot other .pending = (r.setSlot other .pending).setSlot name slot := by
        rw [setSlot, setSlot, setSlot, setSlot, Fields.insert_comm inKeys different]
      have heldThen : (r.setSlot other .pending).HasSlot name := hasSlot_setSlot.mpr (Or.inr held)
      rw [declare_of_absent absent, declare_of_absent known, swapped, ih heldThen]
    · have knownThen : (r.setSlot name slot).HasSlot other := hasSlot_setSlot.mpr (Or.inr known)
      rw [declare_of_hasSlot knownThen, declare_of_hasSlot known, ih held]

theorem free_declareAll_iff {names : List String} {name : String} : (r.declareAll names).Free name ↔ r.Free name := by
  unfold Free
  rw [slot?_declareAll]
  cases r.slot? name with
  | none => by_cases announced : name ∈ names <;> simp [announced]
  | some slot => simp

theorem synthesizesAttrs_declareAll (r : Registry ω) (names : List String) (name : String) :
    (r.declareAll names).synthesizesAttrs name = r.synthesizesAttrs name := by
  unfold synthesizesAttrs
  rw [slot?_declareAll]
  cases r.slot? name with
  | none => by_cases announced : name ∈ names <;> simp [announced]
  | some slot => simp

/-- A name that was announced is a forward reference where it was an unknown type. -/
theorem resolve_declareAll (r : Registry ω) (names : List String) (name : String) :
    (r.declareAll names).resolve name = (r.resolve name).mapError (.announced names) := by
  unfold resolve
  rw [slot?_declareAll]
  cases r.slot? name with
  | none => by_cases announced : name ∈ names <;> simp [announced, Except.mapError, SetupError.announced]
  | some slot => cases slot <;> rfl

/-- A schema is elaborated as before the announcement, but for what an error says of an announced
name. -/
theorem elaborate_declareAll (r : Registry ω) (names : List String) (s : Schema) :
    s.elaborate (r.declareAll names).scope = (s.elaborate r.scope).mapError (.announced names) := by
  refine s.elaborate_mapError (SetupError.ofLookups_announced names) (fun name _ => resolve_declareAll r names name) ?_
  intro tag
  simp only [scope, factory, factories_declareAll]
  cases Fields.get? tag r.factories <;> rfl

theorem start_of_not_free {name : String} (taken : ¬r.Free name) : r.start name = .error (.duplicateName name) := by
  unfold start
  split
  · rfl
  · rfl
  · rename_i pending
    exact absurd (Or.inl pending) taken
  · rename_i absent
    exact absurd (Or.inr absent) taken

end Declare

namespace Due

variable {r : Registry ω} {names rest : List String}

theorem all (r : Registry ω) (names : List String) : r.Due names names := ⟨[], rfl, by simp⟩

theorem mono {after : Registry ω} {due : List String} (waiting : r.Due names due)
    (kept : ∀ name, r.HasSlot name → after.HasSlot name) : after.Due names due := by
  obtain ⟨passed, equal, held⟩ := waiting
  exact ⟨passed, equal, fun name member => kept name (held name member)⟩

theorem pass {taken : List String} (waiting : r.Due names (taken ++ rest)) (held : ∀ name ∈ taken, r.HasSlot name) :
    r.Due names rest := by
  obtain ⟨passed, equal, before⟩ := waiting
  refine ⟨passed ++ taken, by rw [equal, List.append_assoc], fun name member => ?_⟩
  rcases List.mem_append.mp member with earlier | here
  · exact before name earlier
  · exact held name here

theorem start {name : String} (waiting : r.Due names (name :: rest)) (slot : Slot ω) :
    (r.setSlot name slot).Due names rest := by
  have here : (r.setSlot name slot).HasSlot name := hasSlot_setSlot.mpr (Or.inl rfl)
  have moved : (r.setSlot name slot).Due names ([name] ++ rest) :=
    waiting.mono fun _ held => hasSlot_setSlot.mpr (Or.inr held)
  exact moved.pass (by simpa using here)

/-- The name that is due next gets its slot where the announcement put it. -/
theorem setSlot_declareAll {name : String} (waiting : r.Due names (name :: rest)) (slot : Slot ω) :
    (r.declareAll names).setSlot name slot = (r.setSlot name slot).declareAll names := by
  obtain ⟨passed, rfl, held⟩ := waiting
  have heldThen : ∀ other ∈ passed, (r.setSlot name slot).HasSlot other :=
    fun other member => hasSlot_setSlot.mpr (Or.inr (held other member))
  have here : (r.setSlot name slot).HasSlot name := hasSlot_setSlot.mpr (Or.inl rfl)
  have declared : (r.declare name).HasSlot name := by
    rw [HasSlot, slot?_declare, if_pos rfl]
    simp
  have filled : (r.declare name).setSlot name slot = r.setSlot name slot := by
    unfold declare
    split
    · rfl
    · exact setSlot_setSlot r name _ slot
  -- The names before it have slots, so the announcement begins at the name itself.
  calc (r.declareAll (passed ++ name :: rest)).setSlot name slot
      = ((r.declare name).declareAll rest).setSlot name slot := by
        rw [declareAll_append, declareAll_of_hasSlot held]
        rfl
    _ = (r.setSlot name slot).declareAll rest := by rw [← declareAll_setSlot declared, filled]
    _ = ((r.setSlot name slot).declare name).declareAll rest := by rw [declare_of_hasSlot here]
    _ = (r.setSlot name slot).declareAll (passed ++ name :: rest) := by
        rw [declareAll_append, declareAll_of_hasSlot heldThen]
        rfl

end Due

section Register

variable {r : Registry ω} {names rest : List String}

theorem complete_declareAll {name : String} (held : r.HasSlot name) (shape : Shape ω) (attrs : Bool) :
    (r.declareAll names).complete name shape attrs = (r.complete name shape attrs).declareAll names :=
  (declareAll_setSlot held _ names).symm

/-- The registration of the next name starts alike, and can be given up alike, after an announcement. -/
theorem start_declareAll {name : String} (waiting : r.Due names (name :: rest)) :
    (r.start name = .error (.duplicateName name) ∧ (r.declareAll names).start name = .error (.duplicateName name)) ∨
      ∃ wasPending nowPending, r.start name = .ok (r.setSlot name .resolving, wasPending) ∧
        (r.setSlot name .resolving).giveUp name wasPending = r ∧
        (r.declareAll names).start name = .ok ((r.setSlot name .resolving).declareAll names, nowPending) ∧
        ((r.setSlot name .resolving).declareAll names).giveUp name nowPending = r.declareAll names := by
  by_cases free : r.Free name
  · have freeThen : (r.declareAll names).Free name := free_declareAll_iff.mpr free
    obtain ⟨wasPending, started⟩ := start_of_free free
    obtain ⟨nowPending, startedThen⟩ := start_of_free freeThen
    rw [waiting.setSlot_declareAll] at startedThen
    have givenUp := (start_eq_ok started).2.2
    have givenUpThen := (start_eq_ok startedThen).2.2
    exact Or.inr ⟨wasPending, nowPending, started, givenUp, startedThen, givenUpThen⟩
  · have taken : ¬(r.declareAll names).Free name := fun freeThen => free (free_declareAll_iff.mp freeThen)
    exact Or.inl ⟨start_of_not_free free, start_of_not_free taken⟩

/-- A schema is registered before or after the announcement alike, but for what an error says of an
announced name. -/
theorem registerSchema_declareAll {s : Schema} (waiting : r.Due names (s.name :: rest)) :
    (r.declareAll names).registerSchema s =
      ((r.registerSchema s).1.declareAll names, (r.registerSchema s).2.mapError (.announced names)) := by
  rcases start_declareAll waiting with
    ⟨refused, refusedThen⟩ | ⟨wasPending, nowPending, started, givenUp, startedThen, givenUpThen⟩
  · simp only [registerSchema, refused, refusedThen]
    rfl
  · have held : (r.setSlot s.name .resolving).HasSlot s.name := hasSlot_setSlot.mpr (Or.inl rfl)
    -- The schema is elaborated in the two scopes, and what is made of it is put into the same slot.
    simp only [registerSchema, started, startedThen, elaborate_declareAll]
    cases s.elaborate (r.setSlot s.name .resolving).scope with
    | error e => simp only [Except.mapError, givenUp, givenUpThen]
    | ok shape => simp only [Except.mapError, complete_declareAll held]

/-- A class is registered before or after the announcement alike: its own name is started first, and
its schema second. -/
theorem registerClass_declareAll {c : ClassDefinition ω}
    (waiting : r.Due names (c.className :: c.schema.name :: rest)) :
    (r.declareAll names).registerClass c =
      ((r.registerClass c).1.declareAll names, (r.registerClass c).2.mapError (.announced names)) := by
  rcases start_declareAll waiting with
    ⟨refused, refusedThen⟩ | ⟨wasPending, nowPending, started, givenUp, startedThen, givenUpThen⟩
  · simp only [registerClass, refused, refusedThen]
    rfl
  · have inside := registerSchema_declareAll (waiting.start .resolving)
    cases result : (r.setSlot c.className .resolving).registerSchema c.schema with
    | mk registered outcome => cases outcome with
      | error e =>
        obtain rfl := registerSchema_eq_error result
        simp only [registerClass, started, startedThen, inside, result, Except.mapError, givenUp, givenUpThen]
      | ok inner =>
        have held : registered.HasSlot c.className := by
          obtain ⟨_, _, rfl⟩ := registerSchema_eq_ok result
          exact hasSlot_setSlot.mpr (Or.inr (hasSlot_setSlot.mpr (Or.inl rfl)))
        simp only [registerClass, started, startedThen, inside, result, Except.mapError,
          synthesizesAttrs_declareAll, complete_declareAll held]

/-- The next definition is registered alike after an announcement of its names and of others: the two
registries differ in what was announced only, and the outcomes in what they say of a missing name. -/
theorem register_declareAll {d : Definition ω} (waiting : r.Due names (d.names ++ rest)) :
    (r.declareAll names).register d =
      ((r.register d).1.declareAll names, (r.register d).2.mapError (.announced names)) := by
  cases d with
  | schema s =>
    simp only [register, registerSchema_declareAll waiting, mapError_map]
  | ofClass c => exact registerClass_declareAll waiting
  | shape name given =>
    have held : (r.setSlot name .resolving).HasSlot name := hasSlot_setSlot.mpr (Or.inl rfl)
    rcases start_declareAll waiting with ⟨refused, refusedThen⟩ | ⟨_, _, started, _, startedThen, _⟩
    · simp only [register, registerShape, refused, refusedThen]
      rfl
    · simp only [register, registerShape, started, startedThen, complete_declareAll held]
      rfl

/-- A definition that succeeds adds slots for its own names and for no others. -/
theorem hasSlot_of_register {after : Registry ω} {d : Definition ω} (done : r.register d = (after, .ok ()))
    {name : String} : after.HasSlot name ↔ name ∈ d.names ∨ r.HasSlot name := by
  obtain ⟨entries, made, _, slots⟩ := register_eq_ok done
  unfold HasSlot
  rw [slots, ← Definition.keys_entries made, ne_eq, Option.or_eq_none_iff, Fields.get?_eq_none_iff]
  tauto

/-- After a definition succeeds, what is due are the names behind it. -/
theorem Due.register {after : Registry ω} {d : Definition ω} (waiting : r.Due names (d.names ++ rest))
    (done : r.register d = (after, .ok ())) : after.Due names rest := by
  have moved := waiting.mono fun _ held => (hasSlot_of_register done).mpr (Or.inr held)
  exact moved.pass fun _ taken => (hasSlot_of_register done).mpr (Or.inl taken)

end Register

section Run

variable {r : Registry ω} {names rest : List String} {definitions : List (Definition ω)}

/-- A run goes alike after an announcement of the names that it takes. -/
theorem registerEach_declareAll (waiting : r.Due names (definitions.flatMap Definition.names ++ rest)) :
    (r.declareAll names).registerEach definitions =
      ((r.registerEach definitions).1.declareAll names,
        (r.registerEach definitions).2.mapError (.announced names)) := by
  induction definitions generalizing r with
  | nil => rfl
  | cons d later ih =>
    rw [List.flatMap_cons, List.append_assoc] at waiting
    have step := register_declareAll waiting
    cases result : r.register d with
    | mk after outcome => cases outcome with
      | error e => simp only [registerEach, step, result, Except.mapError]
      | ok _ =>
        simp only [registerEach, step, result, Except.mapError]
        exact ih (waiting.register result)

theorem Due.registerEach {after : Registry ω} (waiting : r.Due names (definitions.flatMap Definition.names ++ rest))
    (done : r.registerEach definitions = (after, .ok ())) : after.Due names rest := by
  induction definitions generalizing r with
  | nil =>
    cases done
    exact waiting
  | cons d later ih =>
    rw [List.flatMap_cons, List.append_assoc] at waiting
    obtain ⟨registered, step, further⟩ := registerEach_cons_eq_ok done
    exact ih (waiting.register step) further

/-- The run registers the definitions before the given one, and fails at that one. -/
def StopsAt (r : Registry ω) (definitions before : List (Definition ω)) (d : Definition ω) (e : SetupError) : Prop :=
  ∃ later reached, definitions = before ++ d :: later ∧ r.registerEach before = (reached, .ok ()) ∧
    (reached.register d).2 = .error e

/-- A list of definitions fails at one of them, with all before it registered. -/
theorem exists_stopsAt {e : SetupError} (failed : (r.registerEach definitions).2 = .error e) :
    ∃ before d, r.StopsAt definitions before d e := by
  induction definitions generalizing r with
  | nil => cases failed
  | cons first later ih =>
    rw [registerEach] at failed
    split at failed
    · rename_i registered step
      obtain ⟨before, d, rest, reached, rfl, done, stop⟩ := ih failed
      exact ⟨first :: before, d, rest, reached, rfl, by simp only [registerEach, step, done], stop⟩
    · rename_i after refusal step
      cases failed
      exact ⟨[], first, later, r, rfl, rfl, by rw [step]⟩

/-- The announcement does not move the definition that fails. -/
theorem StopsAt.declareAll {before : List (Definition ω)} {d : Definition ω} {e : SetupError}
    (stops : r.StopsAt definitions before d e) (waiting : r.Due names (definitions.flatMap Definition.names ++ rest)) :
    (r.declareAll names).StopsAt definitions before d (e.announced names) := by
  obtain ⟨later, reached, rfl, done, stop⟩ := stops
  simp only [List.flatMap_append, List.flatMap_cons, List.append_assoc] at waiting
  refine ⟨later, reached.declareAll names, rfl, ?_, ?_⟩
  · rw [registerEach_declareAll waiting, done]
    rfl
  · rw [register_declareAll (waiting.registerEach done), stop]
    rfl

end Run

/-- The names that a batch announces. -/
def namesOf (definitions : List (Definition ω)) : List String := definitions.flatMap Definition.names

theorem due_namesOf (r : Registry ω) (definitions : List (Definition ω)) :
    r.Due (namesOf definitions) (definitions.flatMap Definition.names ++ []) := by
  rw [List.append_nil]
  exact .all r _

theorem registerAll_eq (r : Registry ω) (definitions : List (Definition ω)) : r.registerAll definitions =
    ((r.registerEach definitions).1.declareAll (namesOf definitions),
      (r.registerEach definitions).2.mapError (.announced (namesOf definitions))) :=
  registerEach_declareAll (due_namesOf r definitions)

/-- Where every definition succeeds each announced name has been registered, so the announcement
leaves no trace. -/
theorem registerAll_of_ok {r : Registry ω} {definitions : List (Definition ω)}
    (done : (r.registerEach definitions).2 = .ok ()) : r.registerAll definitions = r.registerEach definitions := by
  obtain ⟨passed, equal, held⟩ := (due_namesOf r definitions).registerEach (Prod.ext rfl done)
  rw [List.append_nil] at equal
  rw [registerAll_eq, equal, declareAll_of_hasSlot held, done]
  exact Prod.ext rfl done.symm

theorem registerAll_ok_iff_registerEach {r : Registry ω} {definitions : List (Definition ω)} :
    (r.registerAll definitions).2 = .ok () ↔ (r.registerEach definitions).2 = .ok () := by
  rw [registerAll_eq]
  exact mapError_eq_ok_iff

/-- A batch does what its definitions do one after another. Where they all register, the registry is
the same one. Where one does not, both stop at that one; the batch leaves the names that were not
registered declared, and reports a name of its own that was missing as one that is not there yet. -/
theorem registerAll_eq_registerEach (r : Registry ω) (definitions : List (Definition ω)) :
    ((r.registerAll definitions).2 = .ok () ↔ (r.registerEach definitions).2 = .ok ()) ∧
    ((r.registerEach definitions).2 = .ok () → r.registerAll definitions = r.registerEach definitions) ∧
    ∀ e, (r.registerEach definitions).2 = .error e →
      (r.registerAll definitions).2 = .error (e.announced (namesOf definitions)) ∧
      (∃ before d, r.StopsAt definitions before d e ∧
        (r.declareAll (namesOf definitions)).StopsAt definitions before d (e.announced (namesOf definitions))) ∧
      ∀ name, (r.registerAll definitions).1.slot? name = ((r.registerEach definitions).1.slot? name).or
        (if name ∈ namesOf definitions then some .pending else none) := by
  refine ⟨registerAll_ok_iff_registerEach, registerAll_of_ok, fun e failed => ⟨?_, ?_, fun name => ?_⟩⟩
  · rw [registerAll_eq, failed]
    rfl
  · obtain ⟨before, d, stops⟩ := exists_stopsAt failed
    exact ⟨before, d, stops, stops.declareAll (due_namesOf r definitions)⟩
  · rw [registerAll_eq]
    exact slot?_declareAll _ _ name

def ticketSchema : Schema :=
  ⟨"Ticket", [⟨"seat", .reference "Seat", false⟩, ⟨"price", .reference "Price", false⟩]⟩

def seatClass : ClassDefinition Json where
  className := "Seat"
  schema := ⟨"Place", [⟨"row", .scalar .number, false⟩]⟩
  construct raw := .ok (.made raw)

/-- A batch that has its ticket before the seat. -/
def ticketFirst : List (Definition Json) := [.shape "Price" .number, .schema ticketSchema, .ofClass seatClass]

theorem registerAll_eq_registerEach_ticketFirst :
    (Registry.empty.registerEach ticketFirst).2 = .error (.inProperty "Ticket" "seat" (.unknownType "Seat")) ∧
    (Registry.empty.registerAll ticketFirst).2 = .error (.inProperty "Ticket" "seat" (.forwardReference "Seat")) ∧
    (Registry.empty.registerAll ticketFirst).1.slot? "Price" = some (.resolved .number false) ∧
    (Registry.empty.registerAll ticketFirst).1.slot? "Place" = some .pending := by
  have failed : (Registry.empty.registerEach ticketFirst).2 =
      .error (.inProperty "Ticket" "seat" (.unknownType "Seat")) := rfl
  obtain ⟨_, _, stopped⟩ := registerAll_eq_registerEach Registry.empty ticketFirst
  obtain ⟨refused, _, slots⟩ := stopped _ failed
  exact ⟨failed, refused, slots "Price", slots "Place"⟩

end Registry

end Conform
