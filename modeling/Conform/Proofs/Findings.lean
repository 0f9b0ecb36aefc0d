import Conform.Proofs.Decoded
import Conform.Shape.Validate

namespace Conform

theorem except_map_eq_ok_iff {ε α β : Type} {f : α → β} {result : Except ε α} {out : β} :
    result.map f = .ok out ↔ ∃ value, result = .ok value ∧ f value = out := by
  cases result <;> simp [Except.map]

theorem except_map_eq_error_iff {ε α β : Type} {f : α → β} {result : Except ε α} {e : ε} :
    result.map f = .error e ↔ result = .error e := by
  cases result <;> simp [Except.map]

theorem except_bind_eq_ok_iff {ε α β : Type} {f : α → Except ε β} {result : Except ε α} {out : β} :
    result >>= f = .ok out ↔ ∃ value, result = .ok value ∧ f value = .ok out := by
  cases result <;> simp [bind, Except.bind]

section MapError

variable {ε ε' α β : Type}

theorem mapError_map (change : ε → ε') (f : α → β) (result : Except ε α) :
    (result.map f).mapError change = (result.mapError change).map f := by
  cases result <;> rfl

theorem mapError_bind (change : ε → ε') (result : Except ε α) (next : α → Except ε β) :
    (result >>= next).mapError change = result.mapError change >>= fun value => (next value).mapError change := by
  cases result <;> rfl

theorem mapError_id (result : Except ε α) : result.mapError id = result := by
  cases result <;> rfl

theorem mapError_eq_ok_iff {change : ε → ε'} {result : Except ε α} {value : α} :
    result.mapError change = .ok value ↔ result = .ok value := by
  cases result <;> simp [Except.mapError]

end MapError

namespace Shape

/-- A rejection names at least one mismatch. -/
def Reports {α : Type} (result : Except Failure α) : Prop :=
  ∀ found, result = .error (.invalid found) → found ≠ []

namespace Findings

variable {α β : Type}

/-- The findings in parts whose results are all at hand. -/
def collect (results : List (Except Failure α)) : Except DecodeError (Findings α) :=
  results.foldr cons (.ok none)

theorem collect_cons (result : Except Failure α) (results : List (Except Failure α)) :
    collect (result :: results) = cons result (collect results) := rfl

theorem collect_map_ok (accepted : List α) : collect (accepted.map .ok) = .ok ⟨accepted, []⟩ := by
  induction accepted with
  | nil => rfl
  | cons first rest ih => rw [List.map_cons, collect_cons, ih]; rfl

/-- A part is put before findings by its value or by its mismatches. -/
theorem cons_eq_ok_iff {part : Except Failure α} {rest : Except DecodeError (Findings α)} {r : Findings α} :
    cons part rest = .ok r ↔ ∃ others, rest = .ok others ∧
      ((∃ d, part = .ok d ∧ ⟨d :: others.accepted, others.mismatches⟩ = r) ∨
        ∃ found, part = .error (.invalid found) ∧ ⟨others.accepted, found ++ others.mismatches⟩ = r) := by
  cases part with
  | ok d => simp [cons, except_map_eq_ok_iff]
  | error f => cases f with
    | fatal e => simp [cons]
    | invalid found => simp [cons, except_map_eq_ok_iff]

theorem cons_eq_error {part : Except Failure α} {rest : Except DecodeError (Findings α)} {e : DecodeError}
    (failed : cons part rest = .error e) : part = .error (.fatal e) ∨ rest = .error e := by
  cases part with
  | ok d => exact Or.inr (except_map_eq_error_iff.mp failed)
  | error f => cases f with
    | fatal e' =>
      cases failed
      exact Or.inl rfl
    | invalid found => exact Or.inr (except_map_eq_error_iff.mp failed)

/-- Where rejections say something and nothing was said every part was accepted. -/
theorem eq_map_ok_of_collect {results : List (Except Failure α)} {accepted : List α}
    (reports : ∀ result ∈ results, Reports result) (clean : collect results = .ok ⟨accepted, []⟩) :
    results = accepted.map .ok := by
  induction results generalizing accepted with
  | nil =>
    cases clean
    rfl
  | cons result results ih =>
    obtain ⟨reportsHere, reportsLater⟩ := List.forall_mem_cons.mp reports
    rw [collect_cons, cons_eq_ok_iff] at clean
    obtain ⟨⟨others, mismatches⟩, later, ⟨d, rfl, equal⟩ | ⟨found, invalid, equal⟩⟩ := clean
    · cases equal
      rw [List.map_cons, ih reportsLater later]
    · have noMismatch : found ++ mismatches = [] := congrArg Findings.mismatches equal
      exact absurd (List.append_eq_nil_iff.mp noMismatch).1 (reportsHere found invalid)

/-- The whole is accepted exactly where every part is. -/
theorem finish_collect_eq_ok_iff {results : List (Except Failure α)} {build : List α → β} {out : β}
    (reports : ∀ result ∈ results, Reports result) :
    finish build (collect results) = .ok out ↔ ∃ accepted, results = accepted.map .ok ∧ build accepted = out := by
  constructor
  · intro done
    cases found : collect results with
    | error e => simp [finish, found] at done
    | ok r =>
      obtain ⟨accepted, mismatches⟩ := r
      cases mismatches with
      | cons m ms => simp [finish, found] at done
      | nil =>
        simp only [finish, found, List.isEmpty_nil, if_true, Except.ok.injEq] at done
        exact ⟨accepted, eq_map_ok_of_collect reports found, done⟩
  · rintro ⟨accepted, rfl, rfl⟩
    simp [finish, collect_map_ok]

/-- Where rejections say something every part of an accepted whole was accepted. -/
theorem ok_of_finish {results : List (Except Failure α)} {build : List α → β} {out : β}
    (reports : ∀ result ∈ results, Reports result) (done : finish build (collect results) = .ok out) :
    ∀ result ∈ results, ∃ part, result = .ok part := by
  obtain ⟨accepted, rfl, _⟩ := (finish_collect_eq_ok_iff reports).mp done
  intro result member
  obtain ⟨part, _, same⟩ := List.mem_map.mp member
  exact ⟨part, same.symm⟩

theorem accepted_of_collect {results : List (Except Failure α)} {r : Findings α} (found : collect results = .ok r) :
    r.accepted = results.filterMap Except.toOption := by
  induction results generalizing r with
  | nil =>
    cases found
    rfl
  | cons result results ih =>
    rw [collect_cons, cons_eq_ok_iff] at found
    obtain ⟨others, later, ⟨d, rfl, rfl⟩ | ⟨more, rfl, rfl⟩⟩ := found
    · exact congrArg (List.cons d) (ih later)
    · have same := ih later
      exact same

/-- An accepted whole is built from the accepted parts. A part whose rejection names no mismatch is
passed over. -/
theorem build_of_finish {results : List (Except Failure α)} {build : List α → β} {out : β}
    (done : finish build (collect results) = .ok out) : build (results.filterMap Except.toOption) = out := by
  cases found : collect results with
  | error e => simp [finish, found] at done
  | ok r =>
    simp only [finish, found] at done
    split at done
    · cases done
      rw [accepted_of_collect found]
    · cases done

/-- Parts that are rejected without a word leave nothing to report. -/
theorem collect_of_silent {results : List (Except Failure α)}
    (silent : ∀ f, .error f ∈ results → f = .invalid []) :
    collect results = .ok ⟨results.filterMap Except.toOption, []⟩ := by
  induction results with
  | nil => rfl
  | cons result results ih =>
    have later := ih fun f member => silent f (List.mem_cons_of_mem _ member)
    rw [collect_cons, later]
    cases result with
    | ok d => rfl
    | error f =>
      rw [silent f List.mem_cons_self]
      rfl

/-- Where nothing is reported no part was rejected with a word. -/
theorem silent_of_collect {results : List (Except Failure α)} {accepted : List α}
    (clean : collect results = .ok ⟨accepted, []⟩) : ∀ f, .error f ∈ results → f = .invalid [] := by
  induction results generalizing accepted with
  | nil => exact fun _ member => nomatch member
  | cons result results ih =>
    intro f member
    rw [collect_cons, cons_eq_ok_iff] at clean
    obtain ⟨⟨others, mismatches⟩, later, ⟨d, rfl, equal⟩ | ⟨found, rfl, equal⟩⟩ := clean
    · cases equal
      rcases List.mem_cons.mp member with other | inRest
      · cases other
      · exact ih later f inRest
    · have noMismatch : found ++ mismatches = [] := congrArg Findings.mismatches equal
      obtain ⟨rfl, rfl⟩ := List.append_eq_nil_iff.mp noMismatch
      rcases List.mem_cons.mp member with here | inRest
      · cases here
        rfl
      · exact ih later f inRest

/-- The whole is accepted exactly where no part names a mismatch, and built from the parts that were
accepted. -/
theorem finish_eq_ok_iff {results : List (Except Failure α)} {build : List α → β} {out : β} :
    finish build (collect results) = .ok out ↔
      (∀ f, .error f ∈ results → f = .invalid []) ∧ build (results.filterMap Except.toOption) = out := by
  constructor
  · intro done
    refine ⟨?_, build_of_finish done⟩
    cases found : collect results with
    | error e => simp [finish, found] at done
    | ok r =>
      obtain ⟨accepted, mismatches⟩ := r
      cases mismatches with
      | cons m ms => simp [finish, found] at done
      | nil => exact silent_of_collect found
  · rintro ⟨silent, rfl⟩
    rw [collect_of_silent silent]
    rfl

theorem mem_of_collect_eq_error {results : List (Except Failure α)} {e : DecodeError}
    (failed : collect results = .error e) : .error (.fatal e) ∈ results := by
  induction results with
  | nil => cases failed
  | cons result results ih =>
    rw [collect_cons] at failed
    rcases cons_eq_error failed with rfl | later
    · exact List.mem_cons_self
    · exact List.mem_cons_of_mem _ (ih later)

theorem mem_of_finish_eq_fatal {results : List (Except Failure α)} {build : List α → β} {e : DecodeError}
    (failed : finish build (collect results) = .error (.fatal e)) : .error (.fatal e) ∈ results := by
  cases found : collect results with
  | error e' =>
    simp only [finish, found, Except.error.injEq, Failure.fatal.injEq] at failed
    exact mem_of_collect_eq_error (failed ▸ found)
  | ok r =>
    simp only [finish, found] at failed
    split at failed <;> simp at failed

/-- What is gathered names nothing but what a rejected part names. -/
theorem mem_mismatches_of_collect {results : List (Except Failure α)} {r : Findings α} {m : Mismatch}
    (found : collect results = .ok r) (member : m ∈ r.mismatches) :
    ∃ more, .error (.invalid more) ∈ results ∧ m ∈ more := by
  induction results generalizing r with
  | nil =>
    cases found
    cases member
  | cons result results ih =>
    rw [collect_cons, cons_eq_ok_iff] at found
    obtain ⟨others, later, ⟨d, _, rfl⟩ | ⟨more, rfl, rfl⟩⟩ := found
    · obtain ⟨more, listed, named⟩ := ih later member
      exact ⟨more, List.mem_cons_of_mem _ listed, named⟩
    · rcases List.mem_append.mp member with here | behind
      · exact ⟨more, List.mem_cons_self, here⟩
      · obtain ⟨further, listed, named⟩ := ih later behind
        exact ⟨further, List.mem_cons_of_mem _ listed, named⟩

/-- A rejected whole reports only what its parts reported, and at least one line. -/
theorem mem_mismatches_of_finish {results : List (Except Failure α)} {build : List α → β} {found : List Mismatch}
    (rejected : finish build (collect results) = .error (.invalid found)) :
    found ≠ [] ∧ ∀ m ∈ found, ∃ more, .error (.invalid more) ∈ results ∧ m ∈ more := by
  cases gathered : collect results with
  | error e => simp [finish, gathered] at rejected
  | ok r =>
    simp only [finish, gathered] at rejected
    split at rejected
    · simp at rejected
    · rename_i mismatched
      simp only [Except.error.injEq, Failure.invalid.injEq] at rejected
      subst rejected
      have nonempty : r.mismatches ≠ [] := fun none => mismatched (List.isEmpty_iff.mpr none)
      exact ⟨nonempty, fun m member => mem_mismatches_of_collect gathered member⟩

theorem exists_invalid_of_finish {results : List (Except Failure α)} {build : List α → β}
    {found : List Mismatch} (rejected : finish build (collect results) = .error (.invalid found)) :
    found ≠ [] ∧ ∃ more, .error (.invalid more) ∈ results := by
  obtain ⟨nonempty, named⟩ := mem_mismatches_of_finish rejected
  obtain ⟨m, member⟩ := List.exists_mem_of_ne_nil found nonempty
  obtain ⟨more, listed, _⟩ := named m member
  exact ⟨nonempty, more, listed⟩

end Findings

end Shape

end Conform
