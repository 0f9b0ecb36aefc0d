import Conform.Proofs.Findings
import Conform.Record

namespace Conform

namespace Reading

theorem string_eq_ok_iff {value : Json} {s : String} : string value = .ok s ↔ value = .str s := by
  cases value <;> simp [string, fail]

theorem boolean_eq_ok_iff {value : Json} {b : Bool} : boolean value = .ok b ↔ value = .bool b := by
  cases value <;> simp [boolean, fail]

theorem inside_eq_ok_iff {α : Type} {key : Key} {r : Reading α} {value : α} :
    inside key r = .ok value ↔ r = .ok value := mapError_eq_ok_iff

theorem each_eq_ok_iff {α σ : Type} {read : σ → Reading α} {sources : List σ} {values : List α} (place : Nat) :
    each read place sources = .ok values ↔ List.Forall₂ (fun source value => read source = .ok value)
      sources values := by
  induction sources generalizing place values with
  | nil =>
    rw [each, List.forall₂_nil_left_iff, Except.ok.injEq, eq_comm]
  | cons source rest ih =>
    rw [each, List.forall₂_cons_left_iff, except_bind_eq_ok_iff]
    simp only [inside_eq_ok_iff, except_bind_eq_ok_iff, ih, pure, Except.pure, Except.ok.injEq]
    constructor
    · rintro ⟨value, read, later, others, rfl⟩
      exact ⟨value, later, read, others, rfl⟩
    · rintro ⟨value, later, read, others, rfl⟩
      exact ⟨value, read, later, others, rfl⟩

end Reading

namespace RecordForm

variable {ι σ : Type} [DecidableEq ι] {form : RecordForm ι} {read : (i : ι) → σ → Reading (form.Value i)}

theorem give_self (given : form.Given) (i : ι) (value : form.Value i) :
    form.give given i value i = some value := dif_pos rfl

theorem give_of_ne (given : form.Given) {i j : ι} (different : i ≠ j) (value : form.Value i) :
    form.give given i value j = given j := dif_neg different

/-- What is known of a field after its key was read: what was known before where there is no key, else what is read
there, and nothing was known. -/
def ReadAt {α : Type} (read : σ → Reading α) (before after : Option α) : Option σ → Prop
  | none => after = before
  | some source => before = none ∧ ∃ value, read source = .ok value ∧ after = some value

/-- What is read at a key that stands for one thing only shows what is there. -/
theorem readAt_iff_of_written {α : Type} {read : σ → Reading α} {write : α → σ}
    (written : ∀ source value, read source = .ok value ↔ source = write value) {after : Option α} {source? : Option σ} :
    ReadAt read none after source? ↔ source? = after.map write := by
  cases source? <;> cases after <;> simp [ReadAt, written]

section Keys

variable {sources rest : Fields σ} {key : String} {source : σ} {i : ι} {given out : form.Given}

/-- A key that is no field of the form is passed over. -/
theorem readKeys_cons_of_other (other : form.fieldOf? key = none) :
    form.readKeys read ((key, source) :: rest) given = form.readKeys read rest given := by
  rw [readKeys, other]

/-- A field is read once, and what is behind it with the field given. -/
theorem readKeys_cons_eq_ok_iff (known : form.fieldOf? key = some i) :
    form.readKeys read ((key, source) :: rest) given = .ok out ↔ given i = none ∧
      ∃ value, read i source = .ok value ∧ form.readKeys read rest (form.give given i value) = .ok out := by
  rw [readKeys, known]
  simp only
  cases given i with
  | some earlier => simp [Reading.fail]
  | none => cases read i source <;> simp [Reading.inside, Except.mapError]

/-- What was read at the first key is what is known of its field from there on. -/
theorem readAt_cons_iff (injective : ∀ j, form.key i = form.key j → i = j)
    (absent : Fields.get? (form.key i) rest = none) (fresh : given i = none) {value : form.Value i}
    (reads : read i source = .ok value) (j : ι) :
    ReadAt (read j) (given j) (out j) (Fields.get? (form.key j) ((form.key i, source) :: rest)) ↔
      ReadAt (read j) (form.give given i value j) (out j) (Fields.get? (form.key j) rest) := by
  by_cases same : i = j
  · subst same
    rw [Fields.get?, if_pos rfl, absent, give_self, ReadAt, ReadAt, reads]
    simp [fresh]
  · rw [Fields.get?, if_neg fun equal => same (injective j equal), give_of_ne given same]

/-- Each key of a record without other names is read for its field. -/
theorem readKeys_eq_ok_iff (plain : ∀ key i, form.fieldOf? key = some i ↔ key = form.key i)
    (nodup : (Fields.keys sources).Nodup) : form.readKeys read sources given = .ok out ↔
      ∀ i, ReadAt (read i) (given i) (out i) (Fields.get? (form.key i) sources) := by
  induction sources generalizing given with
  | nil =>
    simp only [readKeys, Except.ok.injEq, Fields.get?, ReadAt]
    exact ⟨fun same i => same ▸ rfl, fun same => funext fun i => (same i).symm⟩
  | cons entry rest ih =>
    obtain ⟨key, source⟩ := entry
    obtain ⟨notMem, nodupRest⟩ := List.nodup_cons.mp nodup
    have absent : Fields.get? key rest = none := Fields.get?_eq_none_iff.mpr notMem
    -- A known key fills its own field, which is fresh because no key is repeated.
    cases known : form.fieldOf? key with
    | none =>
      have other (i : ι) : key ≠ form.key i := by
        intro same
        rw [(plain key i).mpr same] at known
        cases known
      simp only [readKeys_cons_of_other known, ih nodupRest, Fields.get?, if_neg (other _)]
    | some i =>
      obtain rfl := (plain key i).mp known
      have injective (j : ι) (same : form.key i = form.key j) : i = j :=
        Option.some.inj (known.symm.trans ((plain _ j).mpr same))
      simp only [readKeys_cons_eq_ok_iff known, ih nodupRest]
      constructor
      · rintro ⟨fresh, value, reads, later⟩ j
        exact (readAt_cons_iff injective absent fresh reads j).mpr (later j)
      · intro each
        have here := each i
        rw [Fields.get?, if_pos rfl] at here
        obtain ⟨fresh, value, reads, _⟩ := here
        exact ⟨fresh, value, reads, fun j => (readAt_cons_iff injective absent fresh reads j).mp (each j)⟩

/-- A record is complete where each required field was given. -/
theorem ofFields_eq_ok_iff : form.ofFields read sources = .ok given ↔
    form.readKeys read sources form.nothingGiven = .ok given ∧
      (form.fields.find? fun i => form.required i && (given i).isNone) = none := by
  rw [ofFields, except_bind_eq_ok_iff]
  constructor
  · rintro ⟨_, read, complete⟩
    split at complete
    · cases complete
    · cases complete
      exact ⟨read, ‹_›⟩
  · rintro ⟨read, complete⟩
    refine ⟨given, read, ?_⟩
    rw [complete]
    rfl

end Keys

theorem readPlaces_cons {length place : Nat} {i : ι} {fields : List ι} {source : σ} {rest : List σ}
    {given out : form.Given} : form.readPlaces read length place (i :: fields) (source :: rest) given = .ok out ↔
      ∃ value, read i source = .ok value ∧
        form.readPlaces read length (place + 1) fields rest (form.give given i value) = .ok out := by
  rw [readPlaces]
  cases read i source with
  | error e =>
    refine iff_of_false (by simp [Reading.inside, Except.mapError]) ?_
    rintro ⟨_, refused, _⟩
    cases refused
  | ok value =>
    refine ⟨fun later => ⟨value, rfl, later⟩, ?_⟩
    rintro ⟨_, same, later⟩
    exact Except.ok.inj same ▸ later

end RecordForm

end Conform
