import Mathlib.Data.List.Nodup
import Mathlib.Data.String.Basic
import Conform.Fields

namespace Conform.Fields

universe u v w
variable {α : Type u} {β : Type v}

theorem keys_cons (entry : String × α) (rest : Fields α) : keys (entry :: rest) = entry.1 :: keys rest := rfl

theorem not_mem_keys_cons {key : String} {entry : String × α} {rest : Fields α} :
    key ∉ keys (entry :: rest) ↔ entry.1 ≠ key ∧ key ∉ keys rest := by
  rw [keys_cons, List.mem_cons, not_or, eq_comm]

theorem nodup_keys_cons {entry : String × α} {rest : Fields α} :
    (keys (entry :: rest)).Nodup ↔ entry.1 ∉ keys rest ∧ (keys rest).Nodup := by
  rw [keys_cons, List.nodup_cons]

theorem mem_keys_of_mem {entry : String × α} {fields : Fields α} (member : entry ∈ fields) :
    entry.1 ∈ keys fields :=
  List.mem_map_of_mem member

/-- Puts a value made from its key and the old one in the place of every value. -/
def mapWithKey (f : String → α → β) (fields : Fields α) : Fields β :=
  fields.map fun (key, value) => (key, f key value)

theorem mapWithKey_cons (f : String → α → β) (entry : String × α) (rest : Fields α) :
    mapWithKey f (entry :: rest) = (entry.1, f entry.1 entry.2) :: mapWithKey f rest := rfl

theorem keys_mapWithKey (f : String → α → β) (fields : Fields α) :
    keys (mapWithKey f fields) = keys fields := by
  induction fields with
  | nil => rfl
  | cons entry rest ih => rw [mapWithKey_cons, keys_cons, keys_cons, ih]

theorem nodup_keys_mapWithKey {fields : Fields α} (nodup : (keys fields).Nodup) (f : String → α → β) :
    (keys (mapWithKey f fields)).Nodup := by
  rw [keys_mapWithKey]
  exact nodup

theorem mem_mapWithKey {f : String → α → β} {fields : Fields α} {entry : String × β} :
    entry ∈ mapWithKey f fields ↔ ∃ old ∈ fields, (old.1, f old.1 old.2) = entry :=
  List.mem_map

theorem mapWithKey_id (fields : Fields α) : mapWithKey (fun _ value => value) fields = fields := List.map_id fields

theorem mapWithKey_congr {f g : String → α → β} {fields : Fields α}
    (agree : ∀ entry ∈ fields, f entry.1 entry.2 = g entry.1 entry.2) :
    mapWithKey f fields = mapWithKey g fields :=
  List.map_congr_left fun entry member => congrArg (Prod.mk entry.1) (agree entry member)

theorem mapWithKey_eq_self {f : String → α → α} {fields : Fields α}
    (fixed : ∀ entry ∈ fields, f entry.1 entry.2 = entry.2) : mapWithKey f fields = fields :=
  (mapWithKey_congr fixed).trans (mapWithKey_id fields)

theorem mapWithKey_mapWithKey {γ : Type w} (g : String → β → γ) (f : String → α → β) (fields : Fields α) :
    mapWithKey g (mapWithKey f fields) = mapWithKey (fun key value => g key (f key value)) fields :=
  List.map_map

theorem mapWithKey_insert (f : String → α → β) (key : String) (value : α) (fields : Fields α) :
    mapWithKey f (insert key value fields) = insert key (f key value) (mapWithKey f fields) := by
  induction fields with
  | nil => rfl
  | cons entry rest ih =>
    obtain ⟨k, v⟩ := entry
    by_cases same : k = key
    · simp [insert, mapWithKey_cons, same]
    · simp only [insert, same, if_false, mapWithKey_cons, ih]

theorem get?_eq_none_iff {key : String} {fields : Fields α} :
    get? key fields = none ↔ key ∉ keys fields := by
  induction fields with
  | nil => simp [get?, keys]
  | cons entry rest ih =>
    obtain ⟨k, v⟩ := entry
    by_cases same : k = key
    · simp [get?, keys, same]
    · rw [get?, if_neg same, ih, not_mem_keys_cons]
      exact ⟨fun absent => ⟨same, absent⟩, fun absent => absent.2⟩

theorem get?_isSome_iff {key : String} {fields : Fields α} :
    (get? key fields).isSome = true ↔ key ∈ keys fields := by
  rw [Option.isSome_iff_ne_none, ne_eq, get?_eq_none_iff, not_not]

theorem mem_of_get? {key : String} {value : α} {fields : Fields α}
    (found : get? key fields = some value) : (key, value) ∈ fields := by
  induction fields with
  | nil => simp [get?] at found
  | cons entry rest ih =>
    obtain ⟨k, v⟩ := entry
    by_cases same : k = key
    · simp only [get?, same, if_true, Option.some.injEq] at found
      simp [same, found]
    · simp only [get?, same, if_false] at found
      exact List.mem_cons_of_mem _ (ih found)

/-- Where every key occurs once, looking a key up finds the entry that is there. -/
theorem get?_eq_some_iff {key : String} {value : α} {fields : Fields α}
    (nodup : (keys fields).Nodup) : get? key fields = some value ↔ (key, value) ∈ fields := by
  refine ⟨mem_of_get?, fun member => ?_⟩
  induction fields with
  | nil => simp at member
  | cons entry rest ih =>
    obtain ⟨k, v⟩ := entry
    obtain ⟨absent, nodup⟩ := nodup_keys_cons.mp nodup
    rcases List.mem_cons.mp member with equal | later
    · cases equal
      simp [get?]
    · have different : k ≠ key := by
        intro same
        have known := mem_keys_of_mem later
        exact absent (same ▸ known)
      simp only [get?, different, if_false]
      exact ih nodup later

theorem get?_mapWithKey (f : String → α → β) (key : String) (fields : Fields α) :
    get? key (mapWithKey f fields) = (get? key fields).map (f key) := by
  induction fields with
  | nil => rfl
  | cons entry rest ih =>
    obtain ⟨k, v⟩ := entry
    by_cases same : k = key
    · simp [mapWithKey_cons, get?, same]
    · simp only [mapWithKey_cons, get?, same, if_false, ih]

theorem get?_append_of_not_mem {key : String} {front : Fields α} (absent : key ∉ keys front)
    (back : Fields α) : get? key (front ++ back) = get? key back := by
  induction front with
  | nil => rfl
  | cons entry rest ih =>
    obtain ⟨k, v⟩ := entry
    obtain ⟨different, absent⟩ := not_mem_keys_cons.mp absent
    simp only [List.cons_append, get?, different, if_false]
    exact ih absent

theorem get?_insert (key other : String) (value : α) (fields : Fields α) :
    get? other (insert key value fields) = if other = key then some value else get? other fields := by
  by_cases same : other = key
  · rw [same, get?_insert_self, if_pos rfl]
  · rw [get?_insert_of_ne (fun h => same h.symm), if_neg same]

theorem mem_keys_of_mem_cons {key : String} {entry : String × α} {rest : Fields α} (known : key ∈ keys (entry :: rest))
    (ne : entry.1 ≠ key) : key ∈ keys rest := by
  rcases List.mem_cons.mp known with equal | later
  · exact absurd equal.symm ne
  · exact later

/-- A known key keeps its place. -/
theorem keys_insert_of_mem {key : String} {fields : Fields α} (known : key ∈ keys fields) (value : α) :
    keys (insert key value fields) = keys fields := by
  induction fields with
  | nil => simp [keys] at known
  | cons entry rest ih =>
    obtain ⟨k, v⟩ := entry
    by_cases same : k = key
    · simp [insert, keys, same]
    · have later := mem_keys_of_mem_cons known same
      have tail := ih later
      simp only [keys] at tail ⊢
      simp only [insert, same, if_false, List.map_cons, tail]

/-- A new key goes to the end. -/
theorem insert_of_not_mem {key : String} {fields : Fields α} (absent : key ∉ keys fields) (value : α) :
    insert key value fields = fields ++ [(key, value)] := by
  induction fields with
  | nil => rfl
  | cons entry rest ih =>
    obtain ⟨k, v⟩ := entry
    obtain ⟨different, absent⟩ := not_mem_keys_cons.mp absent
    simp only [insert, different, if_false, List.cons_append, ih absent]

theorem insert_insert (key : String) (old new : α) (fields : Fields α) :
    insert key new (insert key old fields) = insert key new fields := by
  induction fields with
  | nil => simp [insert]
  | cons entry rest ih =>
    obtain ⟨k, v⟩ := entry
    by_cases same : k = key <;> simp [insert, same, ih]

/-- A known key holds its place, so values for two keys can be put in either way round. -/
theorem insert_comm {key other : String} {fields : Fields α} (known : key ∈ keys fields) (ne : key ≠ other)
    (value new : α) : insert other new (insert key value fields) = insert key value (insert other new fields) := by
  induction fields with
  | nil => simp [keys] at known
  | cons entry rest ih =>
    obtain ⟨k, v⟩ := entry
    by_cases same : k = key
    · subst same
      simp [insert, ne]
    · have later := mem_keys_of_mem_cons known same
      by_cases isOther : k = other
      · subst isOther
        simp [insert, same]
      · simp [insert, same, isOther, ih later]

theorem insert_of_get? {key : String} {value : α} {fields : Fields α} (found : get? key fields = some value) :
    insert key value fields = fields := by
  induction fields with
  | nil => simp [get?] at found
  | cons entry rest ih =>
    obtain ⟨k, v⟩ := entry
    by_cases same : k = key
    · simp only [get?, same, if_true, Option.some.injEq] at found
      simp [insert, same, found]
    · simp only [get?, same, if_false] at found
      simp [insert, same, ih found]

theorem erase_insert_of_not_mem {key : String} {fields : Fields α} (absent : key ∉ keys fields) (value : α) :
    erase key (insert key value fields) = fields := by
  induction fields with
  | nil => simp [insert, erase]
  | cons entry rest ih =>
    obtain ⟨k, v⟩ := entry
    obtain ⟨different, absent⟩ := not_mem_keys_cons.mp absent
    simp only [insert, different, if_false, erase, ih absent]

theorem insert_append_of_not_mem {key : String} {front : Fields α} (absent : key ∉ keys front)
    (value : α) (back : Fields α) : insert key value (front ++ back) = front ++ insert key value back := by
  induction front with
  | nil => rfl
  | cons entry rest ih =>
    obtain ⟨k, v⟩ := entry
    obtain ⟨different, absent⟩ := not_mem_keys_cons.mp absent
    simp only [List.cons_append, insert, different, if_false, ih absent]

theorem nodup_keys_insert {fields : Fields α} (nodup : (keys fields).Nodup) (key : String) (value : α) :
    (keys (insert key value fields)).Nodup := by
  by_cases known : key ∈ keys fields
  · rw [keys_insert_of_mem known]
    exact nodup
  · rw [insert_of_not_mem known, keys, List.map_append]
    refine List.nodup_append.mpr ⟨nodup, List.nodup_singleton _, ?_⟩
    intro k inFields other inEntry equal
    rw [List.map_singleton, List.mem_singleton] at inEntry
    rw [equal, inEntry] at inFields
    exact known inFields

theorem forall_mem_insert {fields : Fields α} (nodup : (keys fields).Nodup) {key : String} {value : α}
    {P : String × α → Prop} (new : P (key, value)) (old : ∀ entry ∈ fields, P entry) :
    ∀ entry ∈ insert key value fields, P entry := by
  intro entry member
  have found := (get?_eq_some_iff (nodup_keys_insert nodup key value)).mpr member
  rw [get?_insert] at found
  by_cases same : entry.1 = key
  · rw [if_pos same, Option.some.injEq] at found
    rw [show entry = (key, value) from Prod.ext same found.symm]
    exact new
  · rw [if_neg same] at found
    exact old entry (mem_of_get? found)

/-- The order of distinct keys does not matter to a lookup. -/
theorem get?_perm {key : String} {f g : Fields α} (nodup : (keys f).Nodup) (perm : f.Perm g) :
    get? key f = get? key g := by
  have nodup' : (keys g).Nodup := (perm.map Prod.fst).nodup_iff.mp nodup
  apply Option.ext
  intro value
  rw [get?_eq_some_iff nodup, get?_eq_some_iff nodup', perm.mem_iff]

theorem erase_sublist (key : String) (fields : Fields α) : (erase key fields).Sublist fields := by
  induction fields with
  | nil => exact .slnil
  | cons entry rest ih =>
    obtain ⟨k, v⟩ := entry
    by_cases same : k = key
    · simp only [erase, same, if_true]
      exact List.sublist_cons_self _ _
    · simp only [erase, same, if_false]
      exact ih.cons_cons _

theorem nodup_keys_erase {fields : Fields α} (nodup : (keys fields).Nodup) (key : String) :
    (keys (erase key fields)).Nodup :=
  nodup.sublist ((erase_sublist key fields).map Prod.fst)

theorem get?_erase {fields : Fields α} (nodup : (keys fields).Nodup) (key other : String) :
    get? other (erase key fields) = if other = key then none else get? other fields := by
  induction fields with
  | nil => simp [erase, get?]
  | cons entry rest ih =>
    obtain ⟨k, v⟩ := entry
    obtain ⟨absent, nodup⟩ := nodup_keys_cons.mp nodup
    by_cases same : k = key
    · simp only [erase, same, if_true, get?]
      by_cases here : other = key
      · rw [if_pos here, get?_eq_none_iff, here, ← same]
        exact absent
      · rw [if_neg here, if_neg fun h => here h.symm]
    · simp only [erase, same, if_false, get?, ih nodup]
      by_cases here : k = other
      · simp only [here, if_true, if_neg (here ▸ same)]
      · simp only [here, if_false]

theorem erase_of_not_mem {key : String} {fields : Fields α} (absent : key ∉ keys fields) :
    erase key fields = fields := by
  induction fields with
  | nil => rfl
  | cons entry rest ih =>
    obtain ⟨k, v⟩ := entry
    obtain ⟨different, absent⟩ := not_mem_keys_cons.mp absent
    rw [erase, if_neg different, ih absent]

/-- Moving the last entry into the gap or closing the gap leaves the same entries. -/
theorem swapErase_perm_erase (key : String) (fields : Fields α) :
    (swapErase key fields).Perm (erase key fields) := by
  induction fields with
  | nil => exact .refl _
  | cons entry rest ih =>
    obtain ⟨k, v⟩ := entry
    by_cases same : k = key
    · simp only [swapErase, erase, same, if_true]
      cases last : rest.getLast? with
      | none => rw [List.getLast?_eq_none_iff.mp last]
      | some entry =>
        obtain ⟨front, rfl⟩ := List.getLast?_eq_some_iff.mp last
        simpa only [List.dropLast_concat] using (List.perm_append_singleton entry front).symm
    · simp only [swapErase, erase, same, if_false]
      exact ih.cons _

theorem swapErase_of_not_mem {key : String} {fields : Fields α} (absent : key ∉ keys fields) :
    swapErase key fields = fields := by
  induction fields with
  | nil => rfl
  | cons entry rest ih =>
    obtain ⟨k, v⟩ := entry
    obtain ⟨different, absent⟩ := not_mem_keys_cons.mp absent
    rw [swapErase, if_neg different, ih absent]

theorem mem_of_mem_swapErase {key : String} {fields : Fields α} {entry : String × α}
    (member : entry ∈ swapErase key fields) : entry ∈ fields :=
  (erase_sublist key fields).subset ((swapErase_perm_erase key fields).mem_iff.mp member)

theorem swapErase_insert_of_not_mem {key : String} {fields : Fields α} (absent : key ∉ keys fields) (value : α) :
    swapErase key (insert key value fields) = fields := by
  induction fields with
  | nil => simp [insert, swapErase]
  | cons entry rest ih =>
    obtain ⟨k, v⟩ := entry
    obtain ⟨different, absent⟩ := not_mem_keys_cons.mp absent
    rw [insert, if_neg different, swapErase, if_neg different, ih absent]

theorem nodup_keys_swapErase {fields : Fields α} (nodup : (keys fields).Nodup) (key : String) :
    (keys (swapErase key fields)).Nodup :=
  ((swapErase_perm_erase key fields).map Prod.fst).nodup_iff.mpr (nodup_keys_erase nodup key)

/-- The last entry moves to the place of the removed one, which no lookup notices. -/
theorem get?_swapErase {fields : Fields α} (nodup : (keys fields).Nodup) (key other : String) :
    get? other (swapErase key fields) = if other = key then none else get? other fields := by
  rw [get?_perm (nodup_keys_swapErase nodup key) (swapErase_perm_erase key fields),
    get?_erase nodup]

/-- Where no key is repeated the last entry is the first. -/
theorem last?_eq_get? {fields : Fields α} (nodup : (keys fields).Nodup) (key : String) :
    last? key fields = get? key fields := by
  induction fields with
  | nil => rfl
  | cons entry rest ih =>
    obtain ⟨k, v⟩ := entry
    obtain ⟨absent, nodup⟩ := nodup_keys_cons.mp nodup
    by_cases same : k = key
    · have gone : get? key rest = none := get?_eq_none_iff.mpr (same ▸ absent)
      simp only [last?, get?, ih nodup, same, if_true, gone, Option.none_or]
    · simp only [last?, get?, ih nodup, same, if_false, Option.or_none]

theorem mem_of_last? {key : String} {value : α} {fields : Fields α}
    (found : last? key fields = some value) : (key, value) ∈ fields := by
  induction fields with
  | nil => simp [last?] at found
  | cons entry rest ih =>
    obtain ⟨k, v⟩ := entry
    simp only [last?, Option.or_eq_some_iff] at found
    rcases found with later | ⟨_, here⟩
    · exact List.mem_cons_of_mem _ (ih later)
    · by_cases same : k = key
      · simp only [same, if_true, Option.some.injEq] at here
        simp [same, here]
      · simp [same] at here

theorem last?_eq_none_iff {key : String} {fields : Fields α} :
    last? key fields = none ↔ key ∉ keys fields := by
  induction fields with
  | nil => simp [last?, keys]
  | cons entry rest ih =>
    obtain ⟨k, v⟩ := entry
    by_cases same : k = key
    · simp [last?, keys, same]
    · rw [last?, if_neg same, Option.or_none, ih, not_mem_keys_cons]
      exact ⟨fun absent => ⟨same, absent⟩, fun absent => absent.2⟩

/-- The last value that a function has for the entries of a name. -/
def lastSome? (key : String) (f : α → Option β) : Fields α → Option β
  | [] => none
  | (k, v) :: rest => (lastSome? key f rest).or (if k = key then f v else none)

theorem lastSome?_none (key : String) (fields : Fields α) :
    lastSome? key (fun _ => (none : Option β)) fields = none := by
  induction fields with
  | nil => rfl
  | cons entry rest ih => rw [lastSome?, ih, ite_self, Option.or_none]

theorem lastSome?_of_not_mem {key : String} {fields : Fields α} (absent : key ∉ keys fields) (f : α → Option β) :
    lastSome? key f fields = none := by
  induction fields with
  | nil => rfl
  | cons entry rest ih =>
    obtain ⟨different, later⟩ := not_mem_keys_cons.mp absent
    rw [lastSome?, ih later, if_neg different, Option.or_none]

theorem exists_of_lastSome? {key : String} {f : α → Option β} {fields : Fields α} {out : β}
    (found : lastSome? key f fields = some out) : ∃ entry ∈ fields, entry.1 = key ∧ f entry.2 = some out := by
  induction fields with
  | nil => cases found
  | cons entry rest ih =>
    rw [lastSome?, Option.or_eq_some_iff] at found
    rcases found with later | ⟨_, here⟩
    · obtain ⟨other, inRest, same⟩ := ih later
      exact ⟨other, List.mem_cons_of_mem _ inRest, same⟩
    · obtain ⟨same, known⟩ := Option.ite_none_right_eq_some.mp here
      exact ⟨entry, List.mem_cons_self, same, known⟩

theorem lastSome?_eq_get?_bind {fields : Fields α} (nodup : (keys fields).Nodup) (f : α → Option β) (key : String) :
    lastSome? key f fields = (get? key fields).bind f := by
  induction fields with
  | nil => rfl
  | cons entry rest ih =>
    obtain ⟨k, v⟩ := entry
    obtain ⟨absent, nodup⟩ := nodup_keys_cons.mp nodup
    rw [lastSome?, get?]
    by_cases same : k = key
    · rw [lastSome?_of_not_mem (same ▸ absent), Option.none_or, if_pos same, if_pos same, Option.bind_some]
    · rw [ih nodup, if_neg same, if_neg same, Option.or_none]

/-- The last entry that is kept under a key is the last that has a result. -/
theorem last?_filterMap_eq_lastSome? (f : String → α → Option β) (key : String) (fields : Fields α) :
    last? key (fields.filterMap fun entry => (f entry.1 entry.2).map (Prod.mk entry.1)) =
      lastSome? key (f key) fields := by
  induction fields with
  | nil => rfl
  | cons entry rest ih =>
    obtain ⟨k, v⟩ := entry
    rw [List.filterMap_cons, lastSome?, ← ih]
    by_cases same : k = key
    · subst same
      cases f k v <;> simp [last?]
    · cases f k v <;> simp [last?, same]

/-- Where the function has a value for every entry of the name, the last entry decides. -/
theorem lastSome?_eq_bind {f : α → Option β} {key : String} {fields : Fields α}
    (each : ∀ value, (key, value) ∈ fields → (f value).isSome = true) :
    lastSome? key f fields = (last? key fields).bind f := by
  induction fields with
  | nil => rfl
  | cons entry rest ih =>
    obtain ⟨k, v⟩ := entry
    rw [lastSome?, last?, ih fun value member => each value (List.mem_cons_of_mem _ member)]
    cases later : last? key rest with
    | some value =>
      have known := each value (List.mem_cons_of_mem _ (mem_of_last? later))
      obtain ⟨out, found⟩ := Option.isSome_iff_exists.mp known
      simp [found]
    | none => by_cases same : k = key <;> simp [same]

theorem lastSome?_of_last? {f : α → Option β} {key : String} {fields : Fields α} {value : α} {out : β}
    (found : last? key fields = some value) (known : f value = some out) : lastSome? key f fields = some out := by
  induction fields with
  | nil => cases found
  | cons entry rest ih =>
    rw [lastSome?]
    rcases Option.or_eq_some_iff.mp found with later | ⟨absent, here⟩
    · rw [ih later, Option.some_or]
    · obtain ⟨same, known'⟩ := Option.ite_none_right_eq_some.mp here
      cases known'
      rw [lastSome?_of_not_mem (last?_eq_none_iff.mp absent), Option.none_or, if_pos same, known]

/-- A pass over the fields of a list changes each of them in its place. The fields in front are done;
those behind them still hold the old values. -/
theorem foldl_mapWithKey {γ : Type w} {step : Fields β → String × γ → Fields β} {old new : String → α → β}
    {change : String → α → γ} {front : Fields β} {fields : Fields α} (nodup : (keys fields).Nodup)
    (apart : ∀ key ∈ keys fields, key ∉ keys front)
    (acts : ∀ entry ∈ fields, ∀ front back, entry.1 ∉ keys front →
      step (front ++ (entry.1, old entry.1 entry.2) :: back) (entry.1, change entry.1 entry.2) =
        front ++ (entry.1, new entry.1 entry.2) :: back) :
    (mapWithKey change fields).foldl step (front ++ mapWithKey old fields) = front ++ mapWithKey new fields := by
  induction fields generalizing front with
  | nil => rfl
  | cons entry rest ih =>
    obtain ⟨notLater, nodup⟩ := nodup_keys_cons.mp nodup
    obtain ⟨actsHere, actsLater⟩ := List.forall_mem_cons.mp acts
    have absent : entry.1 ∉ keys front := apart entry.1 List.mem_cons_self
    have apartLater : ∀ key ∈ keys rest, key ∉ keys (front ++ [(entry.1, new entry.1 entry.2)]) := by
      intro other later
      simp only [keys, List.map_append, List.map_cons, List.map_nil, List.mem_append, List.mem_singleton, not_or]
      exact ⟨apart other (List.mem_cons_of_mem _ later), fun same => notLater (same ▸ later)⟩
    simp only [mapWithKey_cons, List.foldl_cons]
    rw [actsHere front _ absent, List.append_cons, ih nodup apartLater actsLater, ← List.append_cons]

end Conform.Fields
