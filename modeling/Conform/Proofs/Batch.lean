import Mathlib.Data.List.Sort
import Mathlib.Order.Extension.Linear
import Conform.Proofs.Advance

namespace Conform

variable {ω : Type}

namespace Schema

/-- A batch whose schemas each use what is known before it and the names that come before them. -/
structure InOrder (known made : String → Prop) (batch : List Schema) : Prop where
  distinct : (batch.map Schema.name).Nodup
  fresh : ∀ s ∈ batch, ¬known s.name
  sound : ∀ before s after, batch = before ++ s :: after →
    s.Sound (fun name => known name ∨ name ∈ before.map Schema.name) made

/-- A batch whose schemas each use what is known before it and the names of the whole batch. -/
structure WellFormed (known made : String → Prop) (batch : List Schema) : Prop where
  distinct : (batch.map Schema.name).Nodup
  fresh : ∀ s ∈ batch, ¬known s.name
  sound : ∀ s ∈ batch, s.Sound (fun name => known name ∨ name ∈ batch.map Schema.name) made

/-- Of two schemas of a batch, the first refers to the second. -/
def DependsOn (batch : List Schema) (s t : Schema) : Prop := s ∈ batch ∧ t ∈ batch ∧ s.Mentions t.name

/-- A schema of the batch leads back to itself along its references. -/
def Cyclic (batch : List Schema) : Prop := ∃ s, Relation.TransGen (DependsOn batch) s s

/-- The references of a batch lead from the second schema to the first, if not at once. -/
def NeededBy (batch : List Schema) (t s : Schema) : Prop := Relation.ReflTransGen (DependsOn batch) s t

/-- An order in which each schema comes after those of the batch that it refers to. -/
def Topological (order : List Schema) : Prop :=
  ∀ before s after, order = before ++ s :: after → ∀ t ∈ order, s.Mentions t.name → t ∈ before

section Batch

variable {known made : String → Prop} {batch : List Schema}

theorem inOrder_nil : InOrder known made [] := ⟨List.nodup_nil, by simp, by simp⟩

/-- A schema comes in order when it is sound by the names known before it, and the rest by its own
name too. -/
theorem inOrder_cons_iff {s : Schema} {rest : List Schema} : InOrder known made (s :: rest) ↔
    (¬known s.name ∧ s.Sound known made) ∧ InOrder (fun name => name = s.name ∨ known name) made rest := by
  constructor
  · intro inOrder
    obtain ⟨absent, distinct⟩ := List.nodup_cons.mp inOrder.distinct
    have first := inOrder.sound [] s rest rfl
    refine ⟨⟨inOrder.fresh s List.mem_cons_self, ?_⟩, distinct, fun t member => ?_, ?_⟩
    · simpa using first
    · rintro (same | isKnown)
      · exact absent (same ▸ List.mem_map_of_mem member)
      · exact inOrder.fresh t (List.mem_cons_of_mem _ member) isKnown
    · rintro before t after rfl
      refine (inOrder.sound (s :: before) t after rfl).mono fun name isKnown => ?_
      simpa [or_assoc, or_left_comm] using isKnown
  · rintro ⟨⟨freshHere, soundHere⟩, inOrder⟩
    refine ⟨?_, ?_, ?_⟩
    · refine List.nodup_cons.mpr ⟨fun known => ?_, inOrder.distinct⟩
      obtain ⟨t, member, same⟩ := List.mem_map.mp known
      exact inOrder.fresh t member (Or.inl same)
    · exact List.forall_mem_cons.mpr ⟨freshHere, fun t member isKnown => inOrder.fresh t member (Or.inr isKnown)⟩
    · intro before t after split
      cases before with
      | nil =>
        cases split
        simpa using soundHere
      | cons first before =>
        cases split
        refine (inOrder.sound before t after rfl).mono fun name isKnown => ?_
        simpa [or_assoc, or_left_comm] using isKnown

theorem WellFormed.perm {order : List Schema} (wellFormed : WellFormed known made batch) (perm : order.Perm batch) :
    WellFormed known made order where
  distinct := (perm.map Schema.name).nodup_iff.mpr wellFormed.distinct
  fresh s member := wellFormed.fresh s (perm.mem_iff.mp member)
  sound s member := by
    refine (wellFormed.sound s (perm.mem_iff.mp member)).mono fun name isKnown => ?_
    rwa [(perm.map Schema.name).mem_iff]

theorem eq_of_name_eq (distinct : (batch.map Schema.name).Nodup) {s t : Schema} (first : s ∈ batch)
    (second : t ∈ batch) (same : s.name = t.name) : s = t :=
  List.inj_on_of_nodup_map distinct first second same

/-- A batch in order names no schema of its own before that is registered. -/
theorem InOrder.topological (inOrder : InOrder known made batch) : Topological batch := by
  intro before s after split t member mentioned
  rcases inOrder.sound before s after split (.reference t.name) mentioned with isKnown | listed
  · exact absurd isKnown (inOrder.fresh t member)
  · obtain ⟨other, earlier, same⟩ := List.mem_map.mp listed
    have inBatch : other ∈ batch := split ▸ List.mem_append_left _ earlier
    exact eq_of_name_eq inOrder.distinct inBatch member same ▸ earlier

/-- In a topological order the schemas use nothing but what comes before them. -/
theorem WellFormed.inOrder (wellFormed : WellFormed known made batch) (topological : Topological batch) :
    InOrder known made batch where
  distinct := wellFormed.distinct
  fresh := wellFormed.fresh
  sound := by
    intro before s after split
    have member : s ∈ batch := split ▸ List.mem_append_right _ List.mem_cons_self
    have sound := wellFormed.sound s member
    refine sound.restrict fun name mentioned => ?_
    rcases sound (.reference name) mentioned with isKnown | listed
    · exact Or.inl isKnown
    · obtain ⟨t, inBatch, rfl⟩ := List.mem_map.mp listed
      exact Or.inr (List.mem_map_of_mem (topological before s after split t inBatch mentioned))

/-- A reference in a topological order leads to an earlier place. -/
theorem Topological.place_lt (topological : Topological batch) (distinct : (batch.map Schema.name).Nodup)
    {s t : Schema} (depends : DependsOn batch s t) :
    (batch.map Schema.name).idxOf t.name < (batch.map Schema.name).idxOf s.name := by
  obtain ⟨member, inBatch, mentioned⟩ := depends
  obtain ⟨before, after, rfl⟩ := List.append_of_mem member
  have earlier := topological before s after rfl t inBatch mentioned
  have listed : t.name ∈ before.map Schema.name := List.mem_map_of_mem earlier
  rw [List.map_append, List.map_cons] at distinct ⊢
  have notBefore : s.name ∉ before.map Schema.name :=
    fun again => (List.nodup_append.mp distinct).2.2 _ again _ List.mem_cons_self rfl
  rw [List.idxOf_append_of_mem listed, List.idxOf_append_of_notMem notBefore]
  exact Nat.lt_add_right _ (List.idxOf_lt_length_of_mem listed)

/-- A dependency leads to an earlier place, so no chain of them comes back. -/
theorem Topological.not_cyclic (topological : Topological batch) (distinct : (batch.map Schema.name).Nodup) :
    ¬Cyclic batch := by
  rintro ⟨s, cycle⟩
  have falls : ∀ t, Relation.TransGen (DependsOn batch) s t →
      (batch.map Schema.name).idxOf t.name < (batch.map Schema.name).idxOf s.name := by
    intro t path
    induction path with
    | single depends => exact topological.place_lt distinct depends
    | tail _ depends ih => exact (topological.place_lt distinct depends).trans ih
  exact lt_irrefl _ (falls s cycle)

theorem cyclic_perm {order : List Schema} (perm : order.Perm batch) : Cyclic order ↔ Cyclic batch := by
  have same : DependsOn order = DependsOn batch := by
    funext s t
    simp only [DependsOn, perm.mem_iff]
  rw [Cyclic, Cyclic, same]

/-- Without a cycle the schemas are partially ordered by their dependencies. -/
theorem isPartialOrder_neededBy (acyclic : ¬Cyclic batch) : IsPartialOrder Schema (NeededBy batch) where
  refl _ := .refl
  trans _ _ _ first second := second.trans first
  antisymm s t back forth := by
    rcases Relation.reflTransGen_iff_eq_or_transGen.mp back with same | path
    · exact same
    · exact absurd ⟨t, path.trans_left forth⟩ acyclic

/-- Without a cycle, what needs what is a part of some linear order, by which the batch is sorted. -/
theorem exists_topological (acyclic : ¬Cyclic batch) :
    ∃ order : List Schema, order.Perm batch ∧ Topological order := by
  classical
  have := isPartialOrder_neededBy acyclic
  -- Whatever linear order contains it sorts the batch, so no schema has to be picked step by step.
  obtain ⟨before, linear, extends_⟩ := extend_partialOrder (NeededBy batch)
  have perm := List.perm_insertionSort before batch
  have sorted := List.pairwise_insertionSort before batch
  refine ⟨batch.insertionSort before, perm, fun front s back split t member mentioned => ?_⟩
  have inBatch : s ∈ batch := perm.mem_iff.mp (split ▸ List.mem_append_right _ List.mem_cons_self)
  have depends : DependsOn batch s t := ⟨inBatch, perm.mem_iff.mp member, mentioned⟩
  have different : s ≠ t := fun same => acyclic ⟨s, .single (same ▸ depends)⟩
  rw [split] at sorted member
  rcases List.mem_append.mp member with earlier | later
  · exact earlier
  · rcases List.mem_cons.mp later with same | behind
    · exact absurd same.symm different
    · have after := (List.pairwise_cons.mp (List.pairwise_append.mp sorted).2.1).1 t behind
      exact absurd (linear.antisymm _ _ after (extends_ _ _ (.single depends))) different

/-- A batch in order is well-formed: what a schema mentions is known or of the batch. -/
theorem InOrder.wellFormed (inOrder : InOrder known made batch) : WellFormed known made batch where
  distinct := inOrder.distinct
  fresh := inOrder.fresh
  sound s member := by
    obtain ⟨before, after, rfl⟩ := List.append_of_mem member
    refine (inOrder.sound before s after rfl).mono fun name isKnown => ?_
    exact isKnown.imp_right fun earlier => List.map_append ▸ List.mem_append_left _ earlier

/-- What is in order in some order is well formed and without a cycle. -/
theorem exists_inOrder_iff : (∃ order : List Schema, order.Perm batch ∧ InOrder known made order) ↔
    WellFormed known made batch ∧ ¬Cyclic batch := by
  constructor
  · rintro ⟨order, perm, inOrder⟩
    have acyclic := inOrder.topological.not_cyclic inOrder.distinct
    exact ⟨inOrder.wellFormed.perm perm.symm, fun cyclic => acyclic ((cyclic_perm perm).mpr cyclic)⟩
  · rintro ⟨wellFormed, acyclic⟩
    obtain ⟨order, perm, topological⟩ := exists_topological acyclic
    exact ⟨order, perm, (wellFormed.perm perm).inOrder topological⟩

end Batch

end Schema

namespace Registry

section Batch

variable {r : Registry ω}

/-- Between two operations a name is free exactly when it is not known. -/
theorem Settled.free_iff (settled : r.Settled) {name : String} : r.Free name ↔ ¬r.scope.Knows name := by
  constructor
  · exact Free.not_knows
  · intro unknown
    rw [knows_iff] at unknown
    cases found : r.slot? name with
    | none => exact Or.inr found
    | some slot => cases slot with
      | pending => exact Or.inl found
      | resolving => exact absurd (by rw [state?, found]; rfl) (settled name)
      | resolved shape attrs => exact absurd ⟨shape, attrs, found⟩ unknown

theorem knows_declareAll (r : Registry ω) (names : List String) :
    (r.declareAll names).scope.Knows = r.scope.Knows := by
  refine funext fun name => propext ?_
  rw [knows_iff, knows_iff, slot?_declareAll]
  cases r.slot? name with
  | none => by_cases announced : name ∈ names <;> simp [announced]
  | some slot => simp

theorem makes_declareAll (r : Registry ω) (names : List String) :
    (r.declareAll names).scope.Makes = r.scope.Makes := by
  refine funext fun tag => ?_
  simp only [Scope.Makes, scope, factory, factories_declareAll]

/-- One schema after another is registered where the batch is in order. -/
theorem registerEach_ok_iff (settled : r.Settled) (batch : List Schema) :
    (r.registerEach (batch.map .schema)).2 = .ok () ↔ Schema.InOrder r.scope.Knows r.scope.Makes batch := by
  induction batch generalizing r with
  | nil => exact iff_of_true rfl Schema.inOrder_nil
  | cons s rest ih =>
    have step : (r.register (.schema s)).2 = .ok () ↔ ¬r.scope.Knows s.name ∧ s.Sound r.scope.Knows r.scope.Makes := by
      rw [register_ok_iff_fits, Fits, settled.free_iff]
    rw [Schema.inOrder_cons_iff, ← step, List.map_cons, registerEach]
    split
    · rename_i registered done
      obtain ⟨shape, schemaDone⟩ := registerSchema_of_register done
      obtain ⟨_, _, rfl⟩ := registerSchema_eq_ok schemaDone
      have knows : (r.setSlot s.name (.resolved shape (declaresAttrs s.props))).scope.Knows =
          fun name => name = s.name ∨ r.scope.Knows name :=
        funext fun name => propext (knows_setSlot_resolved s.name name shape _)
      have later := (advances_of_register done).settled settled
      rw [ih later, knows, makes_setSlot, done]
      simp
    · rename_i failed e refused
      rw [refused]
      simp

/-- Announcing the names changes nothing about which orders succeed. -/
theorem registerAll_schemas_ok_iff (settled : r.Settled) (batch : List Schema) :
    (r.registerAll (batch.map .schema)).2 = .ok () ↔ Schema.InOrder r.scope.Knows r.scope.Makes batch := by
  have declared (names : List String) : (r.declareAll names).Settled := (advances_declareAll r names).settled settled
  rw [registerAll, registerEach_ok_iff (declared _), knows_declareAll, makes_declareAll]

end Batch

/-- A batch of schemas is registered exactly where it is in order. With a cycle it is refused in every
order; a well-formed one is registered exactly in its topological orders, of which one without a cycle
has some. -/
theorem registerAll_ok_iff {r : Registry ω} {events : List (Event ω)} (reached : r.Reached events)
    (batch : List Schema) :
    ((r.registerAll (batch.map .schema)).2 = .ok () ↔ Schema.InOrder r.scope.Knows r.scope.Makes batch) ∧
      (Schema.Cyclic batch → ∀ order : List Schema, order.Perm batch →
        (r.registerAll (order.map .schema)).2 ≠ .ok ()) ∧
      (Schema.WellFormed r.scope.Knows r.scope.Makes batch →
        (∀ order : List Schema, order.Perm batch →
          ((r.registerAll (order.map .schema)).2 = .ok () ↔ Schema.Topological order)) ∧
        (¬Schema.Cyclic batch →
          ∃ order : List Schema, order.Perm batch ∧ (r.registerAll (order.map .schema)).2 = .ok ())) := by
  have inOrder (order : List Schema) := registerAll_schemas_ok_iff reached.settled order
  refine ⟨inOrder batch, fun cyclic order perm done => ?_, fun wellFormed => ⟨fun order perm => ?_, fun acyclic => ?_⟩⟩
  · exact (Schema.exists_inOrder_iff.mp ⟨order, perm, (inOrder order).mp done⟩).2 cyclic
  · rw [inOrder]
    exact ⟨Schema.InOrder.topological, (wellFormed.perm perm).inOrder⟩
  · obtain ⟨order, perm, succeeds⟩ := Schema.exists_inOrder_iff.mpr ⟨wellFormed, acyclic⟩
    exact ⟨order, perm, (inOrder order).mpr succeeds⟩

def henSchema : Schema := ⟨"Hen", [⟨"eggs", .array (.reference "Egg"), false⟩]⟩

def eggSchema : Schema := ⟨"Egg", [⟨"layer", (TypeExpr.reference "Hen").nullable, true⟩]⟩

theorem henSchema_cyclic : Schema.Cyclic [henSchema, eggSchema] := by
  have first : henSchema.Mentions "Egg" := .prop List.mem_cons_self rfl (.element (.self _))
  have second : eggSchema.Mentions "Hen" := .prop List.mem_cons_self rfl (.member List.mem_cons_self (.self _))
  exact ⟨henSchema, .tail (.single ⟨by simp, by simp, first⟩) ⟨by simp, by simp, second⟩⟩

/-- A deck is registered after its cards only, and hens and eggs in no order. -/
theorem registerAll_ok_iff_deck :
    (∃ order : List Schema, order.Perm [deckSchema, cardSchema] ∧
      ((Registry.empty : Registry Json).registerAll (order.map .schema)).2 = .ok ()) ∧
    ¬Schema.Topological [deckSchema, cardSchema] ∧
    ∀ order : List Schema, order.Perm [henSchema, eggSchema] →
      ((Registry.empty : Registry Json).registerAll (order.map .schema)).2 ≠ .ok () := by
  have swapped : [cardSchema, deckSchema].Perm [deckSchema, cardSchema] := .swap _ _ _
  have inOrder := (registerAll_ok_iff (.empty : Reached (.empty : Registry Json) []) [cardSchema, deckSchema]).1.mp rfl
  have fine := Schema.exists_inOrder_iff.mp ⟨_, swapped, inOrder⟩
  obtain ⟨topological, some⟩ :=
    (registerAll_ok_iff (.empty : Reached (.empty : Registry Json) []) [deckSchema, cardSchema]).2.2 fine.1
  refine ⟨some fine.2, fun sorted => ?_, ?_⟩
  · cases (topological _ (.refl _)).mpr sorted
  · exact (registerAll_ok_iff .empty [henSchema, eggSchema]).2.1 henSchema_cyclic

end Registry

end Conform
