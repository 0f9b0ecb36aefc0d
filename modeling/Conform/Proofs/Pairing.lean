import Mathlib.Data.List.Forall2
import Conform.Proofs.Repeats

namespace Conform.Mismatch

/-- Two mismatches of one value at one place, whatever each of them expected. -/
def Beside (m n : Mismatch) : Prop := m.path = n.path ∧ m.actual = n.actual

/-- The place that a mismatch is found at and the value that is found there, up to the order of fields. -/
def place (m : Mismatch) : String × Option Json := (m.path, m.actual.map Json.normal)

theorem place_eq_of_same {m n : Mismatch} (same : m.same n = true) : m.place = n.place := by
  have normal : m.normal = n.normal := same_iff.mp same
  show (m.normal.path, m.normal.actual) = (n.normal.path, n.normal.actual)
  rw [normal]

/-- A pairing of mismatches in which what repeats on one side repeats on the other. -/
def Faithful (Paired : Mismatch → Mismatch → Prop) : Prop :=
  ∀ m n m' n', Paired m n → Paired m' n' → m.same m' = n.same n'

section Faithful

open Failure (addNew)

variable {Paired : Mismatch → Mismatch → Prop} {known known' more more' : List Mismatch}

theorem any_same_of_faithful (faithful : Faithful Paired) {m n : Mismatch} (here : Paired m n)
    (paired : List.Forall₂ Paired known known') : known.any (m.same ·) = known'.any (n.same ·) := by
  induction paired with
  | nil => rfl
  | cons first _ ih => rw [List.any_cons, List.any_cons, ih, faithful _ _ _ _ here first]

theorem forall₂_concat {m n : Mismatch} (paired : List.Forall₂ Paired known known') (last : Paired m n) :
    List.Forall₂ Paired (known ++ [m]) (known' ++ [n]) :=
  List.rel_append paired (.cons last .nil)

/-- Reports that are paired faithfully are gathered in pairs. -/
theorem forall₂_foldl_addNew (faithful : Faithful Paired) (paired : List.Forall₂ Paired known known')
    (later : List.Forall₂ Paired more more') :
    List.Forall₂ Paired (more.foldl addNew known) (more'.foldl addNew known') := by
  induction later generalizing known known' with
  | nil => exact paired
  | @cons m n _ _ first _ ih =>
    have alike := any_same_of_faithful faithful first paired
    rw [List.foldl_cons, List.foldl_cons]
    by_cases repeated : known.any (m.same ·) = true
    · rw [addNew_of_any repeated, addNew_of_any (alike ▸ repeated)]
      exact ih paired
    · rw [addNew_of_not_any repeated, addNew_of_not_any (alike ▸ repeated)]
      exact ih (forall₂_concat paired first)

end Faithful

/-- What is found on two sides and what is said there on the way: the same is said at the same places, and however
this pairs the two sides, as long as the same repeats, it pairs what is found. -/
structure Echo (found said found' said' : List Mismatch) : Prop where
  covers : Covers found said
  covers' : Covers found' said'
  beside : List.Forall₂ Beside said said'
  paired : ∀ Paired, Faithful Paired → List.Forall₂ Paired said said' → List.Forall₂ Paired found found'

namespace Echo

variable {found said found' said' more others more' others' : List Mismatch}

theorem refl (covers : Covers found said) : Echo found said found said where
  covers := covers
  covers' := covers
  beside := List.forall₂_same.mpr fun _ _ => ⟨rfl, rfl⟩
  paired _ _ paired := List.forall₂_same.mpr fun m listed => List.forall₂_same.mp paired m (covers.part.subset listed)

/-- Nothing is dropped of what is said. -/
theorem whole (beside : List.Forall₂ Beside said said') : Echo said said said' said' where
  covers := .refl said
  covers' := .refl said'
  beside := beside
  paired _ _ paired := paired

theorem single {m n : Mismatch} (beside : Beside m n) : Echo [m] [m] [n] [n] := whole (.cons beside .nil)

theorem said_eq_nil_iff (echo : Echo found said found' said') : said = [] ↔ said' = [] := by
  rw [← List.length_eq_zero_iff, echo.beside.length_eq, List.length_eq_zero_iff]

theorem eq_nil_iff (echo : Echo found said found' said') : found = [] ↔ found' = [] := by
  rw [echo.covers.eq_nil_iff, echo.said_eq_nil_iff, echo.covers'.eq_nil_iff]

/-- What pairs two things that were said one after the other pairs each of them. -/
theorem split {Paired : Mismatch → Mismatch → Prop} (beside : List.Forall₂ Beside said said')
    (paired : List.Forall₂ Paired (said ++ others) (said' ++ others')) :
    List.Forall₂ Paired said said' ∧ List.Forall₂ Paired others others' := by
  constructor
  · have first := List.forall₂_take said.length paired
    rwa [List.take_left, beside.length_eq, List.take_left] at first
  · have later := List.forall₂_drop said.length paired
    rwa [List.drop_left, beside.length_eq, List.drop_left] at later

/-- Where the same repeats on both sides, what is found stands place by place beside the other. -/
theorem forall₂_beside (echo : Echo found said found' said')
    (repeats : ∀ p ∈ said.zip said', ∀ q ∈ said.zip said', p.1.same q.1 = p.2.same q.2) :
    List.Forall₂ Beside found found' := by
  have faithful : Faithful fun m n => (m, n) ∈ said.zip said' := fun m n m' n' here there => repeats _ here _ there
  obtain ⟨length, each⟩ := List.forall₂_iff_zip.mp echo.beside
  have zipped : List.Forall₂ (fun m n => (m, n) ∈ said.zip said') said said' :=
    List.forall₂_iff_zip.mpr ⟨length, fun listed => listed⟩
  exact (echo.paired _ faithful zipped).imp fun m n listed => each listed

theorem append (first : Echo found said found' said') (second : Echo more others more' others') :
    Echo (found ++ more) (said ++ others) (found' ++ more') (said' ++ others') where
  covers := first.covers.append second.covers
  covers' := first.covers'.append second.covers'
  beside := List.rel_append first.beside second.beside
  paired Paired faithful paired := by
    obtain ⟨here, later⟩ := split first.beside paired
    exact List.rel_append (first.paired Paired faithful here) (second.paired Paired faithful later)

/-- Gathering keeps echoes: a line is left out on one side exactly when its pair is left out on the
other. -/
theorem join (first : Echo found said found' said') (second : Echo more others more' others') :
    Echo (more.foldl Failure.addNew found) (said ++ others) (more'.foldl Failure.addNew found') (said' ++ others') where
  covers := first.covers.join second.covers
  covers' := first.covers'.join second.covers'
  beside := List.rel_append first.beside second.beside
  paired Paired faithful paired := by
    obtain ⟨here, later⟩ := split first.beside paired
    exact forall₂_foldl_addNew faithful (first.paired Paired faithful here) (second.paired Paired faithful later)

end Echo

section Places

/-- Leaving out repeats leaves the places and their order. -/
theorem eraseDups_places_firsts (found : List Mismatch) :
    ((firsts found).map place).eraseDups = (found.map place).eraseDups := by
  induction found using List.reverseRecOn with
  | nil => rfl
  | append_singleton rest last ih =>
    have listed (a : String × Option Json) : a ∈ (firsts rest).map place ↔ a ∈ rest.map place := by
      rw [← List.mem_eraseDups, ih, List.mem_eraseDups]
    rw [firsts_concat, List.map_append, List.eraseDups_append]
    by_cases repeated : (firsts rest).any (last.same ·) = true
    · obtain ⟨earlier, listed, same⟩ := List.any_eq_true.mp (any_firsts rest last ▸ repeated)
      have known : last.place ∈ rest.map place := List.mem_map.mpr ⟨earlier, listed, (place_eq_of_same same).symm⟩
      have none : List.removeAll [last.place] (rest.map place) = [] := by simpa [List.removeAll] using known
      rw [addNew_of_any repeated, ih, List.map_singleton, none]
      exact (List.append_nil _).symm
    · have same : List.removeAll [last.place] ((firsts rest).map place) = List.removeAll [last.place] (rest.map place) := by
        simp only [List.removeAll, List.elem_eq_mem, listed]
      rw [addNew_of_not_any repeated, List.map_append, List.eraseDups_append, ih, List.map_singleton, same]

theorem map_place_eq {said said' : List Mismatch} (beside : List.Forall₂ Beside said said') :
    said.map place = said'.map place := by
  induction beside with
  | nil => rfl
  | cons first _ ih => simp only [List.map_cons, place, first.1, first.2, ih]

/-- What is found on two sides stands at the same places, in the same order of their first occurrence. -/
theorem Echo.eraseDups_places_eq {found said found' said' : List Mismatch} (echo : Echo found said found' said') :
    (found.map place).eraseDups = (found'.map place).eraseDups := by
  rw [← eraseDups_places_firsts, echo.covers.firsts_eq, eraseDups_places_firsts, map_place_eq echo.beside,
    ← eraseDups_places_firsts, ← echo.covers'.firsts_eq, eraseDups_places_firsts]

end Places

end Conform.Mismatch
