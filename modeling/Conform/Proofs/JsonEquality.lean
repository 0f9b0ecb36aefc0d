import Conform.Json
import Conform.Proofs.Fields

namespace Conform

namespace Fields

universe u
variable {α : Type u}

theorem place_perm (entry : String × α) (fields : Fields α) :
    (sort.place entry fields).Perm (entry :: fields) := by
  induction fields with
  | nil => exact .refl _
  | cons head rest ih =>
    obtain ⟨k, v⟩ := head
    by_cases before : k < entry.1
    · simp only [sort.place, before, if_true]
      exact (ih.cons _).trans (.swap _ _ _)
    · simp only [sort.place, before, if_false]
      exact .refl _

theorem sort_perm (fields : Fields α) : (sort fields).Perm fields := by
  induction fields with
  | nil => exact .refl _
  | cons entry rest ih => exact (place_perm entry (sort rest)).trans (ih.cons _)

theorem place_sorted (entry : String × α) {fields : Fields α}
    (sorted : fields.Pairwise fun a b => a.1 ≤ b.1) :
    (sort.place entry fields).Pairwise fun a b => a.1 ≤ b.1 := by
  induction fields with
  | nil => simp [sort.place]
  | cons head rest ih =>
    obtain ⟨k, v⟩ := head
    obtain ⟨first, tail⟩ := List.pairwise_cons.mp sorted
    by_cases before : k < entry.1
    · simp only [sort.place, before, if_true]
      refine List.pairwise_cons.mpr ⟨fun other member => ?_, ih tail⟩
      have known := (place_perm entry rest).mem_iff.mp member
      rcases List.mem_cons.mp known with equal | later
      · exact equal ▸ before.le
      · exact first other later
    · simp only [sort.place, before, if_false]
      have least : entry.1 ≤ k := not_lt.mp before
      refine List.pairwise_cons.mpr ⟨fun other member => ?_, sorted⟩
      rcases List.mem_cons.mp member with equal | later
      · exact equal ▸ least
      · exact least.trans (first other later)

/-- The keys of a sorted object ascend. -/
theorem sort_sorted (fields : Fields α) : (sort fields).Pairwise fun a b => a.1 ≤ b.1 := by
  induction fields with
  | nil => exact .nil
  | cons entry rest ih => exact place_sorted entry ih

theorem eq_of_mem_of_key_eq {fields : Fields α} (nodup : (keys fields).Nodup) {a b : String × α}
    (left : a ∈ fields) (right : b ∈ fields) (same : a.1 = b.1) : a = b := by
  have first := (get?_eq_some_iff nodup).mpr left
  have second := (get?_eq_some_iff nodup).mpr right
  rw [same, second] at first
  exact Prod.ext same (Option.some.inj first).symm

/-- Two lists of fields with the same values under the same keys are sorted alike. -/
theorem sort_eq_sort_iff {f g : Fields α} (nodup : (keys f).Nodup) (nodup' : (keys g).Nodup) :
    sort f = sort g ↔ ∀ key, get? key f = get? key g := by
  constructor
  · intro equal key
    have perm : f.Perm g := (sort_perm f).symm.trans (equal ▸ sort_perm g)
    exact get?_perm nodup perm
  · intro agree
    have perm : f.Perm g := by
      refine (List.perm_ext_iff_of_nodup nodup.of_map nodup'.of_map).mpr fun entry => ?_
      rw [← get?_eq_some_iff nodup, ← get?_eq_some_iff nodup', agree]
    refine List.Perm.eq_of_pairwise ?_ (sort_sorted f) (sort_sorted g)
      ((sort_perm f).trans (perm.trans (sort_perm g).symm))
    intro a b inLeft inRight below above
    have left : a ∈ f := (sort_perm f).mem_iff.mp inLeft
    have right : b ∈ f := perm.mem_iff.mpr ((sort_perm g).mem_iff.mp inRight)
    exact eq_of_mem_of_key_eq nodup left right (le_antisymm below above)

end Fields

namespace Json

theorem normalItems_eq_map (items : List Json) : normalItems items = items.map normal := by
  induction items with
  | nil => rfl
  | cons item rest ih => simp only [normalItems, List.map_cons, ih]

theorem normalFields_eq_mapWithKey (fields : Fields Json) :
    normalFields fields = fields.mapWithKey fun _ value => value.normal := by
  induction fields with
  | nil => rfl
  | cons entry rest ih => rw [normalFields, ih, Fields.mapWithKey_cons]

theorem normal_arr_eq_iff {items others : List Json} :
    (Json.arr items).normal = (Json.arr others).normal ↔ items.map normal = others.map normal := by
  simp only [normal, normalItems_eq_map, arr.injEq]

/-- Objects are equal where the same keys hold equal values, in whatever order. -/
theorem normal_obj_eq_iff {f g : Fields Json} (nodup : (Fields.keys f).Nodup)
    (nodup' : (Fields.keys g).Nodup) : (Json.obj f).normal = (Json.obj g).normal ↔
      ∀ key, (Fields.get? key f).map normal = (Fields.get? key g).map normal := by
  simp only [normal, normalFields_eq_mapWithKey, obj.injEq]
  rw [Fields.sort_eq_sort_iff]
  · simp only [Fields.get?_mapWithKey]
  · exact Fields.nodup_keys_mapWithKey nodup _
  · exact Fields.nodup_keys_mapWithKey nodup' _

/-- What equals an object is an object with the same keys. -/
theorem obj_of_normal_eq {value : Json} {f : Fields Json} (same : value.normal = (Json.obj f).normal) :
    ∃ g : Fields Json, value = .obj g ∧ (Fields.keys g).Perm (Fields.keys f) := by
  cases value with
  | obj g =>
    simp only [normal, normalFields_eq_mapWithKey, obj.injEq] at same
    have perm : (Fields.mapWithKey (fun _ => normal) g).Perm (Fields.mapWithKey (fun _ => normal) f) :=
      (Fields.sort_perm _).symm.trans (same ▸ Fields.sort_perm _)
    have keysPerm := perm.map Prod.fst
    rw [← Fields.keys, ← Fields.keys, Fields.keys_mapWithKey, Fields.keys_mapWithKey] at keysPerm
    exact ⟨g, rfl, keysPerm⟩
  | _ => cases same

theorem distinctItems_iff {items : List Json} : DistinctItems items ↔ ∀ item ∈ items, item.Distinct := by
  induction items with
  | nil => simp [DistinctItems]
  | cons item rest ih => simp [DistinctItems, ih]

theorem distinctFields_iff {fields : Fields Json} :
    DistinctFields fields ↔ ∀ entry ∈ fields, entry.2.Distinct := by
  induction fields with
  | nil => simp [DistinctFields]
  | cons entry rest ih => simp [DistinctFields, ih]

theorem distinct_arr_iff {items : List Json} :
    (Json.arr items).Distinct ↔ ∀ item ∈ items, item.Distinct := by
  rw [Distinct, distinctItems_iff]

/-- An object names every key once, and so do its values. -/
theorem distinct_obj_iff {fields : Fields Json} : (Json.obj fields).Distinct ↔
    (Fields.keys fields).Nodup ∧ ∀ entry ∈ fields, entry.2.Distinct := by
  rw [Distinct, distinctFields_iff]

theorem Distinct.of_get? {fields : Fields Json} (distinct : (Json.obj fields).Distinct) {key : String}
    {value : Json} (found : Fields.get? key fields = some value) : value.Distinct :=
  (distinct_obj_iff.mp distinct).2 _ (Fields.mem_of_get? found)

/-- Induction on a value, with the claim at hand for every item and every field. -/
theorem induction {motive : Json → Prop} (null : motive .null) (bool : ∀ b, motive (.bool b))
    (num : ∀ n, motive (.num n)) (str : ∀ s, motive (.str s))
    (arr : ∀ items, (∀ item ∈ items, motive item) → motive (.arr items))
    (obj : ∀ fields, (∀ entry ∈ fields, motive entry.2) → motive (.obj fields)) :
    ∀ value : Json, motive value := by
  refine @Json.rec motive (fun items => ∀ item ∈ items, motive item)
    (fun fields => ∀ entry ∈ fields, motive entry.2) (fun entry => motive entry.2)
    null bool num str arr obj ?_ ?_ ?_ ?_ ?_
  · exact fun _ member => nomatch member
  · exact fun item rest first others => List.forall_mem_cons.mpr ⟨first, others⟩
  · exact fun _ member => nomatch member
  · exact fun entry rest first others => List.forall_mem_cons.mpr ⟨first, others⟩
  · exact fun _ _ claim => claim

theorem get?_sort {fields : Fields Json} (nodup : (Fields.keys fields).Nodup) (key : String) :
    Fields.get? key (Fields.sort fields) = Fields.get? key fields :=
  (Fields.get?_perm nodup (Fields.sort_perm fields).symm).symm

/-- The order of the fields and the sign of a zero do not bear on whether keys are distinct. -/
theorem distinct_normal {value : Json} : value.normal.Distinct ↔ value.Distinct := by
  induction value using Json.induction with
  | null | bool _ | num _ | str _ => exact Iff.rfl
  | arr items ih =>
    rw [normal, normalItems_eq_map, distinct_arr_iff, distinct_arr_iff, List.forall_mem_map]
    exact forall₂_congr ih
  | obj fields ih =>
    have perm := Fields.sort_perm (Fields.mapWithKey (fun _ value => value.normal) fields)
    have keysPerm := perm.map Prod.fst
    rw [← Fields.keys, ← Fields.keys, Fields.keys_mapWithKey] at keysPerm
    rw [normal, normalFields_eq_mapWithKey, distinct_obj_iff, distinct_obj_iff, keysPerm.nodup_iff]
    refine and_congr_right fun _ => ?_
    simp only [perm.mem_iff, Fields.mem_mapWithKey, forall_exists_index, and_imp, forall_apply_eq_imp_iff₂]
    exact forall₂_congr ih

end Json

end Conform
