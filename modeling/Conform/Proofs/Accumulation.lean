import Conform.Proofs.Repeats

namespace Conform

namespace Mismatch

open Failure (addNew)

/-- The mismatches of a list that are the same as none before them, where others were said before the
list. A mismatch is compared with all that was said, also with what was itself left out as a repeat. -/
def unheard (known more : List Mismatch) : List Mismatch :=
  (more.zipIdx.filter fun (m, place) => !(known ++ more.take place).any (m.same ·)).map Prod.fst

theorem unheard_concat (known more : List Mismatch) (last : Mismatch) : unheard known (more ++ [last]) =
    unheard known more ++ if (known ++ more).any (last.same ·) then [] else [last] := by
  have before : ∀ entry ∈ more.zipIdx, (more ++ [last]).take entry.2 = more.take entry.2 := by
    intro entry member
    have within : entry.2 < more.length := List.snd_lt_of_mem_zipIdx member
    exact List.take_append_of_le_length (Nat.le_of_lt within)
  have whole : (more ++ [last]).take more.length = more := List.take_left
  rw [unheard, List.zipIdx_append, List.filter_append, List.map_append, Nat.zero_add, List.zipIdx_singleton]
  congr 1
  · refine congrArg (List.map Prod.fst) (List.filter_congr fun entry member => ?_)
    simp only [before entry member]
  · simp only [List.filter_cons, List.filter_nil, whole]
    cases (known ++ more).any (last.same ·) <;> rfl

/-- A list to which others are joined stays as it is, and what is new comes behind it. It does not matter
that the list grows on the way: what is left out is the same as something that stays. -/
theorem foldl_addNew_eq_append (known more : List Mismatch) :
    more.foldl addNew known = known ++ unheard known more := by
  induction more using List.reverseRecOn with
  | nil => exact (List.append_nil known).symm
  | append_singleton rest last ih =>
    rw [List.foldl_append, List.foldl_cons, List.foldl_nil, unheard_concat, ← any_foldl_addNew]
    by_cases repeated : (rest.foldl addNew known).any (last.same ·) = true
    · rw [addNew_of_any repeated, if_pos repeated, List.append_nil, ih]
    · rw [addNew_of_not_any repeated, if_neg repeated, ih, List.append_assoc]

/-- What repeats something that is known adds nothing to it. -/
theorem foldl_addNew_of_known {known more : List Mismatch} (heard : ∀ m ∈ more, known.any (m.same ·) = true) :
    more.foldl addNew known = known := by
  induction more with
  | nil => rfl
  | cons first rest ih =>
    obtain ⟨here, later⟩ := List.forall_mem_cons.mp heard
    rw [List.foldl_cons, addNew_of_any here, ih later]

end Mismatch

namespace Failure

def error? : Failure → Option DecodeError
  | .fatal e => some e
  | .invalid _ => none

def mismatches : Failure → List Mismatch
  | .fatal _ => []
  | .invalid found => found

/-- A failure that is met again adds nothing. -/
theorem absorb_self (f : Failure) : f.absorb f = f := by
  cases f with
  | fatal e => rfl
  | invalid found =>
    have heard : ∀ m ∈ found, found.any (m.same ·) = true := fun m member =>
      List.any_eq_true.mpr ⟨m, member, Mismatch.same_iff.mpr rfl⟩
    exact congrArg invalid (Mismatch.foldl_addNew_of_known heard)

theorem foldl_absorb_fatal (e : DecodeError) (later : List Failure) : later.foldl absorb (.fatal e) = .fatal e := by
  induction later with
  | nil => rfl
  | cons next rest ih => exact ih

/-- Failures are joined one after another up to the first fatal one; before it the mismatches of each are
joined to those of the first. -/
theorem foldl_absorb_invalid (known : List Mismatch) (later : List Failure) : later.foldl absorb (.invalid known) =
    match later.findSome? error? with
    | some e => .fatal e
    | none => .invalid ((later.flatMap mismatches).foldl addNew known) := by
  induction later generalizing known with
  | nil => rfl
  | cons next rest ih => cases next with
    | fatal e => exact foldl_absorb_fatal e rest
    | invalid more =>
      have goesOn : (invalid more :: rest).findSome? error? = rest.findSome? error? := rfl
      rw [List.foldl_cons, absorb, ih, goesOn, List.flatMap_cons, mismatches, List.foldl_append]

/-- Failures may be joined in any grouping, and one that is met again adds nothing. A sequence of them comes to its
first fatal error if it has one. Else it comes to the mismatches of the first failure as they are, repeats
included, and behind them every mismatch of the later ones that is the same as none before it. -/
theorem absorb_accumulates :
    (∀ f g h : Failure, (f.absorb g).absorb h = f.absorb (g.absorb h)) ∧ (∀ f : Failure, f.absorb f = f) ∧
    ∀ (first : Failure) (later : List Failure), later.foldl absorb first =
      match (first :: later).findSome? error? with
      | some e => .fatal e
      | none => .invalid (first.mismatches ++ Mismatch.unheard first.mismatches (later.flatMap mismatches)) := by
  refine ⟨absorb_assoc, absorb_self, fun first later => ?_⟩
  cases first with
  | fatal e => exact foldl_absorb_fatal e later
  | invalid known =>
    rw [foldl_absorb_invalid, Mismatch.foldl_addNew_eq_append]
    rfl

/-- What the first failure says twice stays, and what comes again behind it goes, in whatever order its keys are. -/
example (a b : Json) :
    let known : Mismatch := ⟨"Trip", "Stop", some (.obj [("a", a), ("b", b)])⟩
    let turned : Mismatch := ⟨"Trip", "Stop", some (.obj [("b", b), ("a", a)])⟩
    let other : Mismatch := ⟨"Trip", "Stop", none⟩
    [invalid [turned, other], invalid [other]].foldl absorb (invalid [known, known]) =
      invalid [known, known, other] := by
  cbv

end Failure

end Conform
