import Conform.Proofs.Shape.Truthful

namespace Conform

namespace Fields

universe u v
variable {α : Type u} {β : Type v} {key : String} {fields : Fields α}

/-- At most one entry of a list stands behind the key. -/
def NearEnd (key : String) (keys : List String) : Prop :=
  ∀ before after, keys = before ++ key :: after → after.length ≤ 1

theorem nearEnd_of_not_mem {keys : List String} (absent : key ∉ keys) : NearEnd key keys := by
  rintro before after rfl
  exact absurd (List.mem_append_right before List.mem_cons_self) absent

theorem nearEnd_cons_iff {other : String} (different : other ≠ key) (keys : List String) :
    NearEnd key (other :: keys) ↔ NearEnd key keys := by
  constructor
  · rintro near before after rfl
    exact near (other :: before) after rfl
  · intro near before after split
    cases before with
    | nil => exact absurd (List.cons.inj split).1 different
    | cons first rest => exact near rest after (List.cons.inj split).2

/-- A key at the front is near the end when one key at most stands behind it. -/
theorem nearEnd_self_iff {keys : List String} (absent : key ∉ keys) : NearEnd key (key :: keys) ↔ keys.length ≤ 1 := by
  constructor
  · exact fun near => near [] keys rfl
  · intro short before after split
    cases before with
    | nil =>
      obtain ⟨_, rfl⟩ := List.cons.inj split
      exact short
    | cons first rest =>
      obtain ⟨_, rfl⟩ := List.cons.inj split
      exact absurd (List.mem_append_right rest List.mem_cons_self) absent

theorem swapErase_mapWithKey (f : String → α → β) (key : String) (fields : Fields α) :
    swapErase key (mapWithKey f fields) = mapWithKey f (swapErase key fields) := by
  induction fields with
  | nil => rfl
  | cons entry rest ih =>
    obtain ⟨k, v⟩ := entry
    by_cases same : k = key
    · simp only [mapWithKey_cons, swapErase, same, if_true]
      rw [mapWithKey, mapWithKey, List.getLast?_map]
      cases rest.getLast? with
      | none => rfl
      | some last => rw [Option.map_some, List.map_cons, List.map_dropLast]
    · simp only [mapWithKey_cons, swapErase, same, if_false, ih]

/-- What stands last comes in front of the others only where there are no others. -/
theorem sublist_moved_iff {last : String × α} {front : Fields α} (absent : key ∉ keys (front ++ [last]))
    (nodup : (keys (front ++ [last])).Nodup) :
    (keys (last :: front)).Sublist (key :: keys (front ++ [last])) ↔ (keys (front ++ [last])).length ≤ 1 := by
  have split : keys (front ++ [last]) = keys front ++ [last.1] := List.map_append
  rw [split] at absent nodup ⊢
  rw [keys_cons, List.length_append, List.length_singleton]
  constructor
  · intro within
    have different : last.1 ≠ key := fun same =>
      absent (same ▸ List.mem_append_right _ (List.mem_singleton_self _))
    have equal : last.1 :: keys front = keys front ++ [last.1] := by
      refine List.Sublist.eq_of_length ?_ (by simp)
      exact (List.sublist_cons_iff.mp within).resolve_right fun ⟨_, same, _⟩ => different (List.cons.inj same).1
    cases front with
    | nil => exact le_rfl
    | cons first rest =>
      -- The first key is the last one, though each occurs once.
      obtain ⟨same, _⟩ := List.cons.inj equal
      rw [keys_cons, ← same, List.cons_append, List.nodup_cons] at nodup
      exact absurd (List.mem_append_right _ (List.mem_singleton_self _)) nodup.1
  · intro short
    have empty : keys front = [] := List.eq_nil_of_length_eq_zero (by omega)
    rw [empty]
    exact List.sublist_cons_self _ _

/-- The entry that is moved into the gap passes the entries between, so the keys stay in their order only where
there are none. -/
theorem keys_swapErase_sublist_iff (nodup : (keys fields).Nodup) (key : String) :
    (keys (swapErase key fields)).Sublist (keys fields) ↔ NearEnd key (keys fields) := by
  induction fields with
  | nil => exact iff_of_true .slnil (nearEnd_of_not_mem List.not_mem_nil)
  | cons entry rest ih =>
    obtain ⟨k, v⟩ := entry
    obtain ⟨absent, nodup⟩ := nodup_keys_cons.mp nodup
    by_cases same : k = key
    · subst same
      rw [keys_cons, nearEnd_self_iff absent, swapErase, if_pos rfl]
      cases found : rest.getLast? with
      | none =>
        rw [List.getLast?_eq_none_iff.mp found]
        exact iff_of_true (List.nil_sublist _) (Nat.zero_le _)
      | some last =>
        obtain ⟨front, rfl⟩ := List.getLast?_eq_some_iff.mp found
        rw [List.dropLast_concat]
        exact sublist_moved_iff absent nodup
    · rw [swapErase, if_neg same, keys_cons, keys_cons, List.cons_sublist_cons, nearEnd_cons_iff same, ih nodup]

end Fields

namespace Json

/-- Each object of a value stands where an input has one, with keys that are so related to the keys there. Only
an empty `attrs` may stand where the input has none. -/
def Along (R : List String → List String → Prop) (input out : Json) : Prop :=
  ∀ path fields, out.follow? path = some (.obj fields) →
    (∃ inputs, input.follow? path = some (.obj inputs) ∧ R (Fields.keys fields) (Fields.keys inputs)) ∨
      (fields = [] ∧ path.getLast? = some (.field attrsKey))

theorem follow?_arr_eq_some_iff {items : List Json} {k : Key} {out : Json} :
    (Json.arr items).follow? [k] = some out ↔ ∃ place, k = .index place ∧ items[place]? = some out := by
  cases k with
  | index place => cases items[place]? <;> simp [follow?]
  | field name => simp [follow?]

theorem follow?_obj_eq_some_iff {fields : Fields Json} {k : Key} {out : Json} :
    (Json.obj fields).follow? [k] = some out ↔ ∃ name, k = .field name ∧ Fields.get? name fields = some out := by
  cases k with
  | field name => cases found : Fields.get? name fields <;> simp [follow?, found]
  | index place => simp [follow?]

theorem Distinct.follow? {value part : Json} (distinct : value.Distinct) {path : List Key}
    (leads : value.follow? path = some part) : part.Distinct := by
  induction path generalizing value with
  | nil =>
    cases leads
    exact distinct
  | cons k chain ih =>
    rw [follow?_cons] at leads
    obtain ⟨inner, first, rest⟩ := Option.bind_eq_some_iff.mp leads
    refine ih ?_ rest
    cases value with
    | arr items =>
      obtain ⟨place, _, found⟩ := follow?_arr_eq_some_iff.mp first
      exact distinct_arr_iff.mp distinct inner (List.mem_of_getElem? found)
    | obj fields =>
      obtain ⟨key, _, found⟩ := follow?_obj_eq_some_iff.mp first
      exact distinct.of_get? found
    | _ => cases k <;> cases first

/-- What equals a value has an object wherever that has one, with the same keys. -/
theorem follow?_of_normal_eq {value other : Json} (distinct : value.Distinct) (same : other.normal = value.normal)
    {path : List Key} {fields : Fields Json} (leads : value.follow? path = some (.obj fields)) :
    ∃ others : Fields Json, other.follow? path = some (.obj others) ∧ (Fields.keys others).Perm (Fields.keys fields) := by
  induction path generalizing value other with
  | nil =>
    cases leads
    obtain ⟨others, rfl, perm⟩ := obj_of_normal_eq same
    exact ⟨others, rfl, perm⟩
  | cons k chain ih =>
    rw [follow?_cons] at leads ⊢
    obtain ⟨part, first, rest⟩ := Option.bind_eq_some_iff.mp leads
    have inner : part.Distinct := distinct.follow? first
    -- Equal values have equal parts behind the same key; from there the induction goes on.
    have further : ∃ part', other.follow? [k] = some part' ∧ part'.normal = part.normal := by
      cases value with
      | arr items =>
        obtain ⟨place, rfl, found⟩ := follow?_arr_eq_some_iff.mp first
        cases other with
        | arr others =>
          have atPlace := congrArg (·[place]?) (normal_arr_eq_iff.mp same)
          simp only [List.getElem?_map, found, Option.map_some] at atPlace
          obtain ⟨part', found', equal⟩ := Option.map_eq_some_iff.mp atPlace
          exact ⟨part', follow?_arr_eq_some_iff.mpr ⟨place, rfl, found'⟩, equal⟩
        | _ => cases same
      | obj fields =>
        obtain ⟨key, rfl, found⟩ := follow?_obj_eq_some_iff.mp first
        obtain ⟨others, rfl, perm⟩ := obj_of_normal_eq same
        have nodup := (distinct_obj_iff.mp distinct).1
        have atKey := (normal_obj_eq_iff (perm.nodup_iff.mpr nodup) nodup).mp same key
        rw [found, Option.map_some] at atKey
        obtain ⟨part', found', equal⟩ := Option.map_eq_some_iff.mp atKey
        exact ⟨part', follow?_obj_eq_some_iff.mpr ⟨key, rfl, found'⟩, equal⟩
      | _ => cases k <;> cases first
    obtain ⟨part', first', equal⟩ := further
    obtain ⟨others, leads', perm⟩ := ih inner equal rest
    exact ⟨others, by rw [first', Option.bind_some, leads'], perm⟩

namespace Along

variable {R : List String → List String → Prop}

theorem refl (reflexive : ∀ keys, R keys keys) (value : Json) : Along R value value :=
  fun _ fields leads => Or.inl ⟨fields, leads, reflexive _⟩

/-- A composite value goes along with an input where its parts do and its keys are so related. -/
theorem of_steps {input out : Json}
    (top : ∀ fields, out = .obj fields → ∃ inputs, input = .obj inputs ∧ R (Fields.keys fields) (Fields.keys inputs))
    (steps : ∀ k part, out.follow? [k] = some part →
      (∃ value, input.follow? [k] = some value ∧ Along R value part) ∨ (k = .field attrsKey ∧ part = .obj [])) :
    Along R input out := by
  intro path fields leads
  cases path with
  | nil =>
    cases leads
    obtain ⟨inputs, rfl, related⟩ := top fields rfl
    exact Or.inl ⟨inputs, rfl, related⟩
  | cons k chain =>
    rw [follow?_cons] at leads
    obtain ⟨part, first, rest⟩ := Option.bind_eq_some_iff.mp leads
    rcases steps k part first with ⟨value, known, along⟩ | ⟨rfl, rfl⟩
    · rcases along chain fields rest with ⟨inputs, further, related⟩ | ⟨empty, last⟩
      · exact Or.inl ⟨inputs, by rw [follow?_cons, known, Option.bind_some, further], related⟩
      · refine Or.inr ⟨empty, ?_⟩
        rw [List.getLast?_cons, last, Option.getD_some]
    · cases chain with
      | nil =>
        cases rest
        exact Or.inr ⟨rfl, rfl⟩
      | cons k' chain' => cases k' <;> cases rest

theorem arr {inputs outs : List Json} (each : List.Forall₂ (Along R) inputs outs) :
    Along R (.arr inputs) (.arr outs) := by
  refine of_steps nofun fun k part first => Or.inl ?_
  obtain ⟨place, rfl, found⟩ := follow?_arr_eq_some_iff.mp first
  obtain ⟨inside, same⟩ := List.getElem?_eq_some_iff.mp found
  have known : place < inputs.length := each.length_eq ▸ inside
  have along : Along R inputs[place] outs[place] := List.Forall₂.get each known inside
  rw [same] at along
  exact ⟨inputs[place], follow?_arr_eq_some_iff.mpr ⟨place, rfl, List.getElem?_eq_getElem known⟩, along⟩

/-- A relation along the fields is one along the object when it holds of the keys as well. -/
theorem obj {inputs fields : Fields Json} (related : R (Fields.keys fields) (Fields.keys inputs))
    (each : ∀ key part, Fields.get? key fields = some part →
      (∃ value, Fields.get? key inputs = some value ∧ Along R value part) ∨ (key = attrsKey ∧ part = .obj [])) :
    Along R (.obj inputs) (.obj fields) := by
  refine of_steps (fun _ same => ⟨inputs, rfl, Json.obj.inj same ▸ related⟩) fun k part first => ?_
  obtain ⟨key, rfl, found⟩ := follow?_obj_eq_some_iff.mp first
  rcases each key part found with ⟨value, known, along⟩ | ⟨rfl, empty⟩
  · exact Or.inl ⟨value, follow?_obj_eq_some_iff.mpr ⟨key, rfl, known⟩, along⟩
  · exact Or.inr ⟨rfl, empty⟩

end Along

end Json

end Conform
