import Conform.Proofs.Reached

namespace Conform

variable {ω : Type}

/-- What names stand for. -/
abbrev Book (ω : Type) := String → Option (TypeTree ω)

def Book.add (book : Book ω) (name : String) (tree : TypeTree ω) : Book ω :=
  fun other => if other = name then some tree else book other

theorem Book.add_eq_some {book : Book ω} {name other : String} {tree found : TypeTree ω} (free : book name = none)
    (kept : book other = some found) : book.add name tree other = some found := by
  by_cases same : other = name
  · rw [same, free] at kept
    cases kept
  · rw [Book.add, if_neg same, kept]

theorem TypeTree.WellFormed.extend {book : Book ω} {t : TypeTree ω} (wellFormed : t.WellFormed book) {name : String}
    (free : book name = none) (tree : TypeTree ω) : t.WellFormed (book.add name tree) :=
  wellFormed.mono fun _ _ => Book.add_eq_some free

/-- The book after a definition was registered. -/
def Definition.enter (book : Book ω) : Definition ω → Book ω
  | schema s =>
    match s.expand book with
    | some tree => book.add s.name tree
    | none => book
  | ofClass c =>
    match c.schema.expand book with
    | some tree => (book.add c.schema.name tree).add c.className (.ofClass c.className tree c.construct)
    | none => book
  | shape name _ =>
    match Stock.named? name with
    | some kind => book.add name (.stock kind)
    | none => book

def bookOf : List (Event ω) → Book ω
  | [] => fun _ => none
  | .registered d :: earlier => d.enter (bookOf earlier)
  | .factory _ _ :: earlier => bookOf earlier

/-- The properties of every list in a definition are distinct, and a ready-made shape is a stock one. -/
def Definition.Plain : Definition ω → Prop
  | .schema s => s.Distinct
  | .ofClass c => c.schema.Distinct
  | .shape name given => ∃ kind : Stock, name = kind.name ∧ given = kind.shape

/-- A plain definition was registered; no factory was. -/
def Event.Plain : Event ω → Prop
  | registered d => d.Plain
  | factory _ _ => False

theorem Book.eq_or_of_add {book : Book ω} {name other : String} {tree found : TypeTree ω}
    (listed : book.add name tree other = some found) : tree = found ∨ book other = some found := by
  by_cases same : other = name
  · rw [Book.add, if_pos same] at listed
    exact Or.inl (Option.some.inj listed)
  · rw [Book.add, if_neg same] at listed
    exact Or.inr listed

/-- What a definition lists in a book: the object type of its schema, its class, or its stock type. -/
theorem Definition.cases_of_enter {book : Book ω} {d : Definition ω} {name : String} {tree : TypeTree ω}
    (listed : d.enter book name = some tree) : book name = some tree ∨
      (∃ label attrs props, tree = .record label attrs props) ∨
      (∃ c inner, d = .ofClass c ∧ tree = .ofClass c.className inner c.construct) ∨
      ∃ kind given, d = .shape name given ∧ tree = .stock kind := by
  cases d with
  | schema s =>
    rw [enter] at listed
    cases expanded : s.expand book with
    | none => exact Or.inl (by simpa only [expanded] using listed)
    | some object =>
      obtain ⟨props, _, rfl⟩ := Option.map_eq_some_iff.mp expanded
      simp only [expanded] at listed
      rcases Book.eq_or_of_add listed with rfl | old
      · exact Or.inr (Or.inl ⟨_, _, _, rfl⟩)
      · exact Or.inl old
  | ofClass c =>
    rw [enter] at listed
    cases expanded : c.schema.expand book with
    | none => exact Or.inl (by simpa only [expanded] using listed)
    | some object =>
      obtain ⟨props, _, rfl⟩ := Option.map_eq_some_iff.mp expanded
      simp only [expanded] at listed
      rcases Book.eq_or_of_add listed with rfl | old
      · exact Or.inr (Or.inr (Or.inl ⟨c, _, rfl, rfl⟩))
      · rcases Book.eq_or_of_add old with rfl | older
        · exact Or.inr (Or.inl ⟨_, _, _, rfl⟩)
        · exact Or.inl older
  | shape key given =>
    rw [enter] at listed
    cases stock : Stock.named? key with
    | none => exact Or.inl (by simpa only [stock] using listed)
    | some kind =>
      simp only [stock, Book.add] at listed
      split at listed
      · rename_i same
        exact Or.inr (Or.inr (Or.inr ⟨kind, given, by rw [same], (Option.some.inj listed).symm⟩))
      · exact Or.inl listed

/-- A constructor in a book is that of a class that was registered. -/
theorem bookOf_ofClass {events : List (Event ω)} {name className : String} {inner : TypeTree ω}
    {construct : Json → Except String (Product ω)}
    (listed : bookOf events name = some (.ofClass className inner construct)) :
    ∃ c, .registered (.ofClass c) ∈ events ∧ c.construct = construct := by
  induction events with
  | nil => cases listed
  | cons event earlier ih =>
    cases event with
    | factory tag make =>
      obtain ⟨c, member, same⟩ := ih listed
      exact ⟨c, List.mem_cons_of_mem _ member, same⟩
    | registered d =>
      rcases Definition.cases_of_enter listed with old | ⟨_, _, _, other⟩ | ⟨c, inner, rfl, same⟩ | ⟨_, _, _, other⟩
      · obtain ⟨c, member, same⟩ := ih old
        exact ⟨c, List.mem_cons_of_mem _ member, same⟩
      · cases other
      · cases same
        exact ⟨c, List.mem_cons_self, rfl⟩
      · cases other

/-- A stock type in a book was registered under its name. -/
theorem bookOf_stock {events : List (Event ω)} {name : String} {kind : Stock}
    (listed : bookOf events name = some (.stock kind)) : ∃ given, .registered (.shape name given) ∈ events := by
  induction events with
  | nil => cases listed
  | cons event earlier ih =>
    cases event with
    | factory tag make =>
      obtain ⟨given, member⟩ := ih listed
      exact ⟨given, List.mem_cons_of_mem _ member⟩
    | registered d =>
      rcases Definition.cases_of_enter listed with old | ⟨_, _, _, other⟩ | ⟨_, _, _, other⟩ | ⟨_, given, rfl, _⟩
      · obtain ⟨given, member⟩ := ih old
        exact ⟨given, List.mem_cons_of_mem _ member⟩
      · cases other
      · cases other
      · exact ⟨given, List.mem_cons_self⟩

/-- A registry knows what a book lists and nothing else, and its only factory is that of arrays. -/
structure Described (r : Registry ω) (book : Book ω) : Prop where
  factories : r.factories = [(arrayTag, .array)]
  listed : ∀ name tree, book name = some tree → r.slot? name = some (.resolved tree.shape tree.addsAttrs)
  complete : ∀ name shape attrs, r.slot? name = some (.resolved shape attrs) → ∃ tree, book name = some tree
  wellFormed : ∀ name tree, book name = some tree → tree.WellFormed book

namespace Described

variable {r : Registry ω} {book : Book ω}

theorem free (described : Described r book) {name : String}
    (unresolved : ∀ shape attrs, r.slot? name ≠ some (.resolved shape attrs)) : book name = none :=
  Option.eq_none_iff_forall_not_mem.mpr fun tree found =>
    unresolved _ _ (described.listed name tree (Option.mem_def.mp found))

theorem explained (described : Described r book) : r.scope.Explained book where
  resolved name shape resolved := by
    simp only [Registry.scope, Registry.resolve] at resolved
    split at resolved
    · rename_i shape' attrs found
      cases resolved
      obtain ⟨tree, listed⟩ := described.complete name _ _ found
      have same := (described.listed name tree listed).symm.trans found
      simp only [Option.some.injEq, Slot.resolved.injEq] at same
      exact ⟨tree, listed, same.1⟩
    all_goals cases resolved
  arrays tag make known := by
    simp only [Registry.scope, Registry.factory, described.factories, Fields.get?] at known
    by_cases same : arrayTag = tag
    · rw [if_pos same] at known
      cases known
      exact ⟨same.symm, rfl⟩
    · rw [if_neg same] at known
      cases known

/-- A name that is declared or being registered is not listed yet. -/
theorem announce (described : Described r book) {name : String} {slot : Slot ω}
    (unresolved : ∀ shape attrs, r.slot? name ≠ some (.resolved shape attrs)) (open_ : slot.state ≠ .resolved) :
    Described (r.setSlot name slot) book where
  factories := described.factories
  listed other tree listed := by
    have different : other ≠ name := by
      rintro rfl
      exact unresolved _ _ (described.listed other tree listed)
    rw [Registry.slot?_setSlot, if_neg different, described.listed other tree listed]
  complete other shape attrs found := by
    rw [Registry.slot?_setSlot] at found
    by_cases same : other = name
    · rw [if_pos same, Option.some.injEq] at found
      rw [found] at open_
      exact absurd rfl open_
    · rw [if_neg same] at found
      exact described.complete other shape attrs found
  wellFormed := described.wellFormed

/-- A tree is entered together with the shape it describes. -/
theorem add (described : Described r book) {name : String} {tree : TypeTree ω}
    (unresolved : ∀ shape attrs, r.slot? name ≠ some (.resolved shape attrs))
    (wellFormed : tree.WellFormed (book.add name tree)) :
    Described (r.setSlot name (.resolved tree.shape tree.addsAttrs)) (book.add name tree) where
  factories := described.factories
  listed other found listed := by
    by_cases same : other = name
    · rw [Book.add, if_pos same, Option.some.injEq] at listed
      rw [Registry.slot?_setSlot, if_pos same, listed]
    · rw [Book.add, if_neg same] at listed
      rw [Registry.slot?_setSlot, if_neg same, described.listed other found listed]
  complete other shape attrs found := by
    by_cases same : other = name
    · exact ⟨tree, if_pos same⟩
    · rw [Registry.slot?_setSlot, if_neg same] at found
      obtain ⟨old, listed⟩ := described.complete other shape attrs found
      exact ⟨old, (if_neg same).trans listed⟩
  wellFormed other found listed := by
    by_cases same : other = name
    · rw [Book.add, if_pos same, Option.some.injEq] at listed
      exact listed ▸ wellFormed
    · rw [Book.add, if_neg same] at listed
      exact (described.wellFormed other found listed).extend (described.free unresolved) tree

/-- A registered schema is described by its expansion. -/
theorem registerSchema (described : Described r book) {s : Schema} (distinct : s.Distinct) {after : Registry ω}
    {shape : Shape ω} (done : r.registerSchema s = (after, .ok shape)) :
    ∃ tree, s.expand book = some tree ∧ tree.shape = shape ∧ tree.addsAttrs = declaresAttrs s.props ∧
      tree.WellFormed book ∧ Described after (book.add s.name tree) := by
  obtain ⟨unresolved, elaborated, rfl⟩ := Registry.registerSchema_eq_ok done
  have started : Described (r.setSlot s.name .resolving) book :=
    described.announce (Registry.not_resolved unresolved) (by simp [Slot.state])
  obtain ⟨props, expanded, rfl⟩ := Schema.expand_of_elaborate started.explained elaborated
  have wellFormed := Schema.wellFormed_of_expand described.wellFormed distinct expanded
  have further := described.add (Registry.not_resolved unresolved)
    (wellFormed.extend (described.free (Registry.not_resolved unresolved)) _)
  exact ⟨_, expanded, rfl, rfl, wellFormed, further⟩

/-- A definition that succeeds is entered in the book and describes what it registered. -/
theorem register (described : Described r book) {d : Definition ω} (plain : d.Plain) {after : Registry ω}
    (done : r.register d = (after, .ok ())) : Described after (d.enter book) := by
  cases d with
  | schema s =>
    obtain ⟨shape, schemaDone⟩ := Registry.registerSchema_of_register done
    obtain ⟨tree, expanded, _, _, _, further⟩ := described.registerSchema plain schemaDone
    simpa only [Definition.enter, expanded] using further
  | ofClass c =>
    obtain ⟨unresolved, registered, inner, schemaDone, different, rfl⟩ := Registry.registerClass_eq_ok done
    have started : Described (r.setSlot c.className .resolving) book :=
      described.announce (Registry.not_resolved unresolved) (by simp [Slot.state])
    obtain ⟨tree, expanded, rfl, adds, wellFormed, further⟩ := started.registerSchema plain schemaDone
    have resolving : ∀ shape attrs, registered.slot? c.className ≠ some (.resolved shape attrs) := by
      simp [Registry.registerClass_resolving schemaDone different]
    have freeSchema : book c.schema.name = none :=
      started.free (Registry.not_resolved (Registry.registerSchema_eq_ok schemaDone).1)
    have known : (TypeTree.ofClass c.className tree c.construct).WellFormed ((book.add c.schema.name tree).add
        c.className (.ofClass c.className tree c.construct)) :=
      .ofClass (if_pos rfl) ((wellFormed.extend freeSchema tree).extend (further.free resolving) _)
    have result := further.add resolving known
    simpa only [Definition.enter, expanded, TypeTree.shape, TypeTree.addsAttrs, adds] using result
  | shape name shape =>
    obtain ⟨kind, rfl, rfl⟩ := plain
    obtain ⟨unresolved, rfl⟩ := Registry.registerShape_eq_ok done
    have known : (TypeTree.stock kind).WellFormed (book.add kind.name (.stock kind)) := .stock (if_pos rfl)
    simpa only [Definition.enter, Stock.named?_name, TypeTree.shape, TypeTree.addsAttrs] using
      described.add (Registry.not_resolved unresolved) known

end Described

/-- The type of a schema is an object type. -/
theorem Schema.ne_ofClass_of_expand {book : Book ω} {s : Schema} {tree : TypeTree ω} (expanded : s.expand book = some tree)
    (className : String) (inner : TypeTree ω) (construct : Json → Except String (Product ω)) :
    tree ≠ .ofClass className inner construct := by
  obtain ⟨props, _, rfl⟩ := Option.map_eq_some_iff.mp expanded
  simp

/-- A book lists the registered classes beside their schemas, and no other classes. -/
structure Recorded (events : List (Event ω)) (book : Book ω) : Prop where
  classes : ∀ c, .registered (.ofClass c) ∈ events → ∃ inner,
    book c.className = some (.ofClass c.className inner c.construct) ∧ book c.schema.name = some inner
  origins : ∀ name className inner construct, book name = some (.ofClass className inner construct) →
    ∃ c, .registered (.ofClass c) ∈ events ∧ c.construct = construct ∧ book c.schema.name = some inner

namespace Recorded

variable {events : List (Event ω)} {book larger : Book ω} {event : Event ω}

/-- An event records itself where the book grows by the classes of that event only. -/
theorem step (recorded : Recorded events book)
    (kept : ∀ name tree, book name = some tree → larger name = some tree)
    (classes : ∀ c, event = .registered (.ofClass c) → ∃ inner,
      larger c.className = some (.ofClass c.className inner c.construct) ∧ larger c.schema.name = some inner)
    (news : ∀ name className inner construct, larger name = some (.ofClass className inner construct) →
      book name = some (.ofClass className inner construct) ∨
        ∃ c, event = .registered (.ofClass c) ∧ c.construct = construct ∧ larger c.schema.name = some inner) :
    Recorded (event :: events) larger where
  classes c member := by
    rcases List.mem_cons.mp member with here | earlier
    · exact classes c here.symm
    · obtain ⟨inner, listed, schema⟩ := recorded.classes c earlier
      exact ⟨inner, kept _ _ listed, kept _ _ schema⟩
  origins name className inner construct listed := by
    rcases news name className inner construct listed with old | ⟨c, rfl, same, schema⟩
    · obtain ⟨c, member, same, schema⟩ := recorded.origins name className inner construct old
      exact ⟨c, List.mem_cons_of_mem _ member, same, kept _ _ schema⟩
    · exact ⟨c, List.mem_cons_self, same, schema⟩

/-- What is not a class may be listed besides. -/
theorem add (recorded : Recorded events book) {name : String} {tree : TypeTree ω} (free : book name = none)
    (noClass : ∀ className inner construct, tree ≠ .ofClass className inner construct)
    (event_noClass : ∀ c, event ≠ .registered (.ofClass c)) : Recorded (event :: events) (book.add name tree) := by
  refine recorded.step (fun _ _ => Book.add_eq_some free) (fun c same => absurd same (event_noClass c)) ?_
  intro other className inner construct listed
  exact (Book.eq_or_of_add listed).elim (fun same => absurd same (noClass _ _ _)) Or.inl

/-- A class is listed beside its schema, which is listed before it. -/
theorem ofClass (recorded : Recorded events book) {c : ClassDefinition ω} {tree : TypeTree ω}
    (freeSchema : book c.schema.name = none) (freeClass : book.add c.schema.name tree c.className = none)
    (noClass : ∀ className inner construct, tree ≠ .ofClass className inner construct) :
    Recorded (.registered (.ofClass c) :: events)
      ((book.add c.schema.name tree).add c.className (.ofClass c.className tree c.construct)) := by
  have schema : ((book.add c.schema.name tree).add c.className (.ofClass c.className tree c.construct))
      c.schema.name = some tree := Book.add_eq_some freeClass (if_pos rfl)
  refine recorded.step ?_ ?_ ?_
  · exact fun _ _ found => Book.add_eq_some freeClass (Book.add_eq_some freeSchema found)
  · rintro _ ⟨⟩
    exact ⟨tree, if_pos rfl, schema⟩
  · intro name className inner construct listed
    rcases Book.eq_or_of_add listed with same | older
    · cases same
      exact Or.inr ⟨c, rfl, rfl, schema⟩
    · exact (Book.eq_or_of_add older).elim (fun same => absurd same (noClass _ _ _)) Or.inl

/-- A definition that succeeds is recorded with the class that it enters. -/
theorem register (recorded : Recorded events book) {r after : Registry ω} (described : Described r book)
    {d : Definition ω} (plain : d.Plain) (done : r.register d = (after, .ok ())) :
    Recorded (.registered d :: events) (d.enter book) := by
  cases d with
  | schema s =>
    obtain ⟨shape, schemaDone⟩ := Registry.registerSchema_of_register done
    obtain ⟨tree, expanded, _⟩ := described.registerSchema plain schemaDone
    have free := described.free (Registry.not_resolved (Registry.registerSchema_eq_ok schemaDone).1)
    simp only [Definition.enter, expanded]
    exact recorded.add free (Schema.ne_ofClass_of_expand expanded) (by simp)
  | ofClass c =>
    obtain ⟨unresolved, registered, inner, schemaDone, different, rfl⟩ := Registry.registerClass_eq_ok done
    have started : Described (r.setSlot c.className .resolving) book :=
      described.announce (Registry.not_resolved unresolved) (by simp [Slot.state])
    obtain ⟨tree, expanded, _, _, _, further⟩ := started.registerSchema plain schemaDone
    have freeSchema := started.free (Registry.not_resolved (Registry.registerSchema_eq_ok schemaDone).1)
    have resolving : ∀ shape attrs, registered.slot? c.className ≠ some (.resolved shape attrs) := by
      simp [Registry.registerClass_resolving schemaDone different]
    have freeClass := further.free resolving
    simp only [Definition.enter, expanded]
    exact recorded.ofClass freeSchema freeClass (Schema.ne_ofClass_of_expand expanded)
  | shape name shape =>
    obtain ⟨kind, rfl, rfl⟩ := plain
    have free := described.free (Registry.not_resolved (Registry.registerShape_eq_ok done).1)
    simp only [Definition.enter, Stock.named?_name]
    exact recorded.add free (by simp) (by simp)

end Recorded

/-- Plain steps lead to a registry that the book of its definitions describes. -/
theorem Registry.Reached.described {r : Registry ω} {events : List (Event ω)} (reached : r.Reached events)
    (plain : ∀ event ∈ events, event.Plain) : Described r (bookOf events) := by
  induction reached with
  | empty =>
    exact ⟨rfl, fun _ _ listed => (nomatch listed), fun _ _ _ found => (nomatch found),
      fun _ _ listed => (nomatch listed)⟩
  | @declare r events name _ ih =>
    unfold Registry.declare
    split
    · exact ih plain
    · rename_i absent
      exact (ih plain).announce (by simp [absent]) (by simp [Slot.state])
  | register _ done ih =>
    obtain ⟨here, earlier⟩ := List.forall_mem_cons.mp plain
    exact (ih earlier).register here done
  | refuse _ failed ih =>
    rw [Registry.register_eq_error failed]
    exact ih plain
  | factory tag make _ _ => exact (plain _ List.mem_cons_self).elim

/-- The book of plain definitions lists every class beside its schema. -/
theorem Registry.Reached.recorded {r : Registry ω} {events : List (Event ω)} (reached : r.Reached events)
    (plain : ∀ event ∈ events, event.Plain) : Recorded events (bookOf events) := by
  induction reached with
  | empty => exact ⟨by simp, fun _ _ _ _ listed => (nomatch listed)⟩
  | declare _ _ ih | refuse _ _ ih => exact ih plain
  | register earlier done ih =>
    obtain ⟨here, before⟩ := List.forall_mem_cons.mp plain
    exact (ih before).register (earlier.described before) here done
  | factory tag make _ _ => exact (plain _ List.mem_cons_self).elim

namespace Decoder

theorem decode_eq_ok_iff {decoder : Decoder ω} {target : Target} {input : Json} {d : Decoded ω} :
    decoder.decode target input = .ok (.ok d) ↔
      ∃ shape, decoder.registry.resolveTarget target = .ok shape ∧ shape.decode input = .ok d := by
  rw [decode, except_map_eq_ok_iff]
  simp only [validate, except_bind_eq_ok_iff, resolve]
  constructor
  · rintro ⟨found, ⟨shape, resolved, outcome⟩, same⟩
    refine ⟨shape, ?_, ?_⟩
    · cases known : decoder.registry.resolveTarget target with
      | error e => simp [known, Except.mapError] at resolved
      | ok other => simpa [known, Except.mapError] using resolved
    · split at outcome
      · rename_i decoded accepted
        cases outcome
        cases same
        exact accepted
      · cases outcome
        cases same
      · cases outcome
  · rintro ⟨shape, resolved, accepted⟩
    exact ⟨.ok d, ⟨shape, by rw [resolved]; rfl, by rw [accepted]; rfl⟩, rfl⟩

end Decoder

namespace Described

variable {r : Registry ω} {book : Book ω}

/-- A target that the book can expand resolves to the shape of its tree. -/
theorem resolveTarget_eq_ok (described : Described r book) (target : Target) {tree : TypeTree ω}
    (expanded : target.expand book = some tree) : r.resolveTarget target = .ok tree.shape := by
  induction target generalizing tree with
  | named name =>
    simp only [Registry.resolveTarget, Target.elaborate, Registry.scope, Registry.resolve,
      described.listed name tree expanded]
  | generic tag argument ih =>
    rw [Target.expand] at expanded
    split at expanded
    · rename_i same
      obtain ⟨inner, known, rfl⟩ := Option.map_eq_some_iff.mp expanded
      have made : r.scope.factory tag = .ok .array := by
        simp only [Registry.scope, Registry.factory, described.factories, Fields.get?, same, if_true]
      have argued : argument.elaborate r.scope = .ok inner.shape := ih known
      rw [Registry.resolveTarget, Target.elaborate, made]
      exact except_map_eq_ok_iff.mpr ⟨inner.shape, argued, rfl⟩
    · cases expanded

/-- An accepted target is a type with a well-formed tree, whose shape did the decoding. -/
theorem of_decode (described : Described r book) {target : Target} {input : Json} {d : Decoded ω}
    (accepted : (Decoder.mk r).decode target input = .ok (.ok d)) :
    ∃ tree, target.expand book = some tree ∧ tree.WellFormed book ∧ tree.shape.decode input = .ok d := by
  obtain ⟨shape, resolved, decoded⟩ := Decoder.decode_eq_ok_iff.mp accepted
  obtain ⟨tree, expanded, rfl⟩ := Target.expand_of_elaborate described.explained target shape resolved
  exact ⟨tree, expanded, target.wellFormed_of_expand described.wellFormed tree expanded, decoded⟩

theorem decode_eq_ok_iff (described : Described r book) {target : Target} {tree : TypeTree ω}
    (expanded : target.expand book = some tree) {input : Json} {d : Decoded ω} :
    (Decoder.mk r).decode target input = .ok (.ok d) ↔ tree.shape.decode input = .ok d := by
  rw [Decoder.decode_eq_ok_iff, described.resolveTarget_eq_ok target expanded]
  simp

theorem encode_eq_ok (described : Described r book) {target : Target} {tree : TypeTree ω}
    (expanded : target.expand book = some tree) (d : Decoded ω) :
    (Decoder.mk r).encode target d = .ok (tree.shape.encode d) := by
  simp only [Decoder.encode, Decoder.resolve, described.resolveTarget_eq_ok target expanded]
  rfl

theorem exists_of_contains (described : Described r book) {name : String} (known : r.contains name = true) :
    ∃ tree, book name = some tree := by
  obtain ⟨shape, attrs, found⟩ := Registry.exists_resolved_of_contains known
  exact described.complete name shape attrs found

end Described

end Conform
