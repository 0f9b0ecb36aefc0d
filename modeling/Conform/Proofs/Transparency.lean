import Conform.Proofs.ClassView
import Conform.Proofs.Renaming

namespace Conform

variable {ω : Type}

/-- The registry with the factory of arrays alone. -/
def Registry.arraysOnly (r : Registry ω) : Registry ω := { r with factories := [(arrayTag, .array)] }

/-- A plain definition was registered, or a factory that puts its argument into a type. -/
def Event.Typed : Event ω → Prop
  | registered d => d.Plain
  | factory _ make => Factory.Typed make

/-- What a registry knows is listed in a book, and its factories put their arguments into types. -/
structure Layers (r : Registry ω) (book : Book ω) : Prop where
  described : Described r.arraysOnly book
  factories : ∀ tag make, r.factory tag = .ok make → Factory.Typed make

namespace Layers

variable {r : Registry ω} {book : Book ω}

theorem slot (layers : Layers r book) {name : String} {tree : TypeTree ω} (listed : book name = some tree) :
    r.slot? name = some (.resolved tree.shape tree.addsAttrs) := layers.described.listed name tree listed

theorem exists_tree (layers : Layers r book) {name : String} {shape : Shape ω} (resolved : r.resolve name = .ok shape) :
    ∃ tree, book name = some tree ∧ tree.shape = shape :=
  layers.described.explained.resolved name shape resolved

/-- A name stands for a peer of itself, and every factory makes peers of peers. -/
theorem scope_layered (layers : Layers r book) {R : String → String → Prop}
    (names : ∀ name other, R name other →
      name = other ∨ Matches (Shape.Layered book) (r.resolve name) (r.resolve other)) :
    r.scope.Layered book R r.scope where
  names name other related := by
    rcases names name other related with rfl | matched
    · show Matches (Shape.Layered book) (r.resolve name) (r.resolve name)
      cases resolved : r.resolve name with
      | error e => exact .error e
      | ok shape =>
        obtain ⟨tree, listed, rfl⟩ := layers.exists_tree resolved
        exact .ok ⟨tree, tree, .refl (layers.described.wellFormed name tree listed), rfl, rfl⟩
    · exact matched
  factories tag := by
    show Matches (Factory.Keeps book) (r.factory tag) (r.factory tag)
    cases found : r.factory tag with
    | error e => exact .error e
    | ok make => exact .ok (layers.factories tag make found).keeps

theorem announce (layers : Layers r book) {name : String} {slot : Slot ω}
    (unresolved : ∀ shape attrs, r.slot? name ≠ some (.resolved shape attrs)) (open_ : slot.state ≠ .resolved) :
    Layers (r.setSlot name slot) book :=
  ⟨layers.described.announce unresolved open_, layers.factories⟩

/-- A tree is entered with its shape, and the factories stay typed. -/
theorem add (layers : Layers r book) {name : String} {tree : TypeTree ω}
    (unresolved : ∀ shape attrs, r.slot? name ≠ some (.resolved shape attrs))
    (wellFormed : tree.WellFormed (book.add name tree)) :
    Layers (r.setSlot name (.resolved tree.shape tree.addsAttrs)) (book.add name tree) :=
  ⟨layers.described.add unresolved wellFormed, layers.factories⟩

/-- A registered schema is listed as an object type. -/
theorem registerSchema (layers : Layers r book) {s : Schema} (distinct : s.Distinct) {after : Registry ω}
    {shape : Shape ω} (done : r.registerSchema s = (after, .ok shape)) :
    book s.name = none ∧ ∃ tree, tree.shape = shape ∧ tree.addsAttrs = declaresAttrs s.props ∧ tree.WellFormed book ∧
      Layers after (book.add s.name tree) ∧ ∀ className inner construct, tree ≠ .ofClass className inner construct := by
  obtain ⟨unfinished, elaborated, rfl⟩ := Registry.registerSchema_eq_ok done
  have unresolved := Registry.not_resolved unfinished
  have started : Layers (r.setSlot s.name .resolving) book := layers.announce unresolved (by simp [Slot.state])
  obtain ⟨nodup, each⟩ := distinct
  have itself : (r.setSlot s.name .resolving).scope.Layered book Eq (r.setSlot s.name .resolving).scope :=
    started.scope_layered fun _ _ => Or.inl
  obtain ⟨props, _, peers, rfl, _⟩ := recordLayered_of_object rfl nodup
    (forall_mem_zip_self fun p member => (TypeExpr.Renamed.refl Eq.refl p.type).elaborate_matches itself
      (TypeExpr.propsDistinct_iff.mp each p member)) elaborated elaborated
  have free : book s.name = none := layers.described.free unresolved
  exact ⟨free, _, rfl, rfl, peers.left, layers.add unresolved (peers.left.extend free _), by simp⟩

end Layers

theorem Factory.typed_array : Factory.Typed (Shape.array : Factory ω) :=
  Or.inl ⟨.array (.reference "T"), "T", trivial, fun _ => rfl⟩

namespace Layers

variable {r after : Registry ω} {events : List (Event ω)} {book : Book ω}

theorem empty : Layers (.empty : Registry ω) fun _ => none where
  described := Registry.Reached.empty.described (by simp)
  factories tag make found := by
    simp only [Registry.factory, Registry.empty, Fields.get?] at found
    by_cases same : arrayTag = tag
    · rw [if_pos same] at found
      cases found
      exact Factory.typed_array
    · rw [if_neg same] at found
      cases found

/-- A factory that keeps the types of its argument keeps the layers. -/
theorem registerFactory (layers : Layers r book) (tag : String) {make : Factory ω} (typed : Factory.Typed make) :
    Layers (r.registerFactory tag make) book where
  described := layers.described
  factories other made found := by
    simp only [Registry.factory, Registry.registerFactory, Fields.get?_insert] at found
    by_cases same : other = tag
    · rw [if_pos same] at found
      cases found
      exact typed
    · rw [if_neg same] at found
      exact layers.factories other made found

/-- A class is listed beside the object type of its schema. -/
theorem registerClass (layers : Layers r book) (recorded : Recorded events book) {c : ClassDefinition ω}
    (distinct : c.schema.Distinct) (done : r.registerClass c = (after, .ok ())) :
    ∃ larger, Layers after larger ∧ Recorded (.registered (.ofClass c) :: events) larger := by
  obtain ⟨unfinished, registered, inner, schemaDone, different, rfl⟩ := Registry.registerClass_eq_ok done
  have started : Layers (r.setSlot c.className .resolving) book :=
    layers.announce (Registry.not_resolved unfinished) (by simp [Slot.state])
  obtain ⟨freeSchema, tree, rfl, adds, wellFormed, further, noClass⟩ := started.registerSchema distinct schemaDone
  have resolving : ∀ shape attrs, registered.slot? c.className ≠ some (.resolved shape attrs) := by
    simp [Registry.registerClass_resolving schemaDone different]
  have freeClass := further.described.free resolving
  have known : (TypeTree.ofClass c.className tree c.construct).WellFormed ((book.add c.schema.name tree).add
      c.className (.ofClass c.className tree c.construct)) :=
    .ofClass (if_pos rfl) ((wellFormed.extend freeSchema tree).extend freeClass _)
  have result := further.add resolving known
  rw [TypeTree.shape, TypeTree.addsAttrs, adds] at result
  exact ⟨_, result, recorded.ofClass freeSchema freeClass noClass⟩

/-- A definition that succeeds keeps the layers and is recorded. -/
theorem register (layers : Layers r book) (recorded : Recorded events book) {d : Definition ω} (plain : d.Plain)
    (done : r.register d = (after, .ok ())) :
    ∃ larger, Layers after larger ∧ Recorded (.registered d :: events) larger := by
  cases d with
  | schema s =>
    obtain ⟨shape, schemaDone⟩ := Registry.registerSchema_of_register done
    obtain ⟨free, tree, _, _, _, further, noClass⟩ := layers.registerSchema plain schemaDone
    exact ⟨_, further, recorded.add free noClass (by simp)⟩
  | ofClass c => exact layers.registerClass recorded plain done
  | shape name shape =>
    obtain ⟨kind, rfl, rfl⟩ := plain
    obtain ⟨unfinished, rfl⟩ := Registry.registerShape_eq_ok done
    have unresolved := Registry.not_resolved unfinished
    have known : (TypeTree.stock kind).WellFormed (book.add kind.name (.stock kind)) := .stock (if_pos rfl)
    exact ⟨_, layers.add unresolved known, recorded.add (layers.described.free unresolved) (by simp) (by simp)⟩

end Layers

/-- Steps whose factories put their arguments into types lead to a registry whose names a book lists. -/
theorem Registry.Reached.layers {r : Registry ω} {events : List (Event ω)} (reached : r.Reached events)
    (typed : ∀ event ∈ events, event.Typed) : ∃ book, Layers r book ∧ Recorded events book := by
  induction reached with
  | empty => exact ⟨_, .empty, by simp, by simp⟩
  | @declare r events name _ ih =>
    obtain ⟨book, layers, recorded⟩ := ih typed
    refine ⟨book, ?_, recorded⟩
    unfold Registry.declare
    split
    · exact layers
    · rename_i absent
      exact layers.announce (by simp [absent]) (by simp [Slot.state])
  | register _ done ih =>
    obtain ⟨here, earlier⟩ := List.forall_mem_cons.mp typed
    obtain ⟨book, layers, recorded⟩ := ih earlier
    exact layers.register recorded here done
  | refuse _ failed ih =>
    rw [Registry.register_eq_error failed]
    exact ih typed
  | factory tag make _ ih =>
    obtain ⟨here, earlier⟩ := List.forall_mem_cons.mp typed
    obtain ⟨book, layers, recorded⟩ := ih earlier
    refine ⟨book, layers.registerFactory tag here, recorded.step (fun _ _ => id) ?_ fun _ _ _ _ => Or.inl⟩
    rintro c ⟨⟩

section Transparent

variable {r : Registry ω} {events : List (Event ω)} {book : Book ω} {c : ClassDefinition ω}

/-- One name for itself, or the schema of a class for the class. -/
def ClassDefinition.Unlayers (c : ClassDefinition ω) (name other : String) : Prop :=
  name = other ∨ name = c.className ∧ other = c.schema.name

/-- The schema of a class may stand in its place. -/
theorem Layers.unlayered (layers : Layers r book) (recorded : Recorded events book)
    (member : .registered (.ofClass c) ∈ events) : r.scope.Layered book c.Unlayers r.scope := by
  obtain ⟨inner, listed, schema⟩ := recorded.classes c member
  refine layers.scope_layered fun name other related => related.imp_right ?_
  rintro ⟨rfl, rfl⟩
  rw [Registry.resolve_eq_ok_iff.mpr ⟨_, layers.slot listed⟩, Registry.resolve_eq_ok_iff.mpr ⟨_, layers.slot schema⟩]
  exact .ok ⟨_, _, .ofClass (layers.described.wellFormed _ _ listed), rfl, rfl⟩

/-- Schemas that differ in layered names are registered as layered shapes, or fail alike. -/
theorem Layers.registerSchema_matches (layers : Layers r book) (recorded : Recorded events book)
    (member : .registered (.ofClass c) ∈ events) {s t : Schema} (distinct : s.Distinct)
    (renamed : s.Renamed c.Unlayers t) :
    Matches (Shape.Layered book) (r.registerSchema s).2 (r.registerSchema t).2 := by
  cases started : r.start s.name with
  | error e =>
    have startedToo : r.start t.name = .error e := renamed.named ▸ started
    rw [Registry.registerSchema, Registry.registerSchema, started, startedToo]
    exact .error e
  | ok result =>
    obtain ⟨during, wasPending⟩ := result
    have startedToo : r.start t.name = .ok (during, wasPending) := renamed.named ▸ started
    rw [Registry.registerSchema_of_start started, Registry.registerSchema_of_start startedToo]
    obtain ⟨rfl, unfinished, _⟩ := Registry.start_eq_ok started
    have announced : Layers (r.setSlot s.name .resolving) book :=
      layers.announce (Registry.not_resolved unfinished) (by simp [Slot.state])
    exact renamed.elaborate_matches (announced.unlayered recorded member) distinct

end Transparent

section Booking

def maybe : Factory Json := fun s => .union [s, .null]

end Booking

end Conform
