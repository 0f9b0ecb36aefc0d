import Mathlib.Data.List.Induction
import Conform.Failure

namespace Conform

namespace Mismatch

theorem same_iff {m n : Mismatch} : m.same n = true ↔ m.normal = n.normal := decide_eq_true_iff

/-- Mismatches that are the same are the same as the same ones. -/
theorem same_congr {m n : Mismatch} (same : m.same n = true) (other : Mismatch) : m.same other = n.same other := by
  rw [Bool.eq_iff_iff, same_iff, same_iff, same_iff.mp same]

/-- The mismatches of a list without those that repeat an earlier one. -/
def firsts (found : List Mismatch) : List Mismatch := found.eraseDupsBy same

section Join

open Failure (addNew)

variable {known more found : List Mismatch} {m : Mismatch}

theorem addNew_of_any (repeated : known.any (m.same ·) = true) : addNew known m = known := by
  rw [addNew, if_pos repeated]

theorem addNew_of_not_any (new : ¬known.any (m.same ·) = true) : addNew known m = known ++ [m] := by
  rw [addNew, if_neg new]

/-- Nothing that is said gets lost when mismatches are joined: at least the same is said before. -/
theorem any_foldl_addNew (known more : List Mismatch) (m : Mismatch) :
    (more.foldl addNew known).any (m.same ·) = (known ++ more).any (m.same ·) := by
  induction more generalizing known with
  | nil => rw [List.foldl_nil, List.append_nil]
  | cons first rest ih =>
    rw [List.foldl_cons, ih]
    by_cases repeated : known.any (first.same ·) = true
    · rw [addNew_of_any repeated, List.any_append, List.any_append, List.any_cons]
      cases same : m.same first with
      | false => rw [Bool.false_or]
      | true =>
        have earlier : known.any (m.same ·) = true := by
          rw [← repeated]
          exact congrArg (known.any ·) (funext (same_congr same))
        rw [earlier, Bool.true_or, Bool.true_or]
    · rw [addNew_of_not_any repeated, List.append_assoc, List.singleton_append]

/-- Gathering leaves lines out and keeps the order of the rest. -/
theorem foldl_addNew_sublist (known more : List Mismatch) : (more.foldl addNew known).Sublist (known ++ more) := by
  induction more generalizing known with
  | nil => exact List.sublist_append_left known []
  | cons first rest ih =>
    refine (ih _).trans ?_
    by_cases repeated : known.any (first.same ·) = true
    · rw [addNew_of_any repeated]
      exact (List.sublist_cons_self first rest).append_left known
    · have regrouped : known ++ [first] ++ rest = known ++ first :: rest := (List.append_cons known first rest).symm
      exact addNew_of_not_any repeated ▸ regrouped ▸ List.Sublist.refl _

/-- The first occurrences are gathered from nothing. -/
theorem firsts_eq_foldl (found : List Mismatch) : firsts found = found.foldl addNew [] := by
  have loop : ∀ (rest kept : List Mismatch),
      List.eraseDupsBy.loop same rest kept = rest.foldl addNew kept.reverse := by
    intro rest
    induction rest with
    | nil => exact fun _ => rfl
    | cons first rest ih =>
      intro kept
      rw [List.eraseDupsBy.loop, List.foldl_cons]
      by_cases repeated : kept.any (first.same ·) = true
      · rw [addNew_of_any (by rwa [List.any_reverse]), ← ih kept]
        simp only [repeated]
      · rw [addNew_of_not_any (by rwa [List.any_reverse]), ← List.reverse_cons, ← ih (first :: kept)]
        simp only [Bool.not_eq_true] at repeated
        simp only [repeated]
  exact loop found []

/-- The first occurrences of two reports are those of the first with the second gathered into them. -/
theorem firsts_append (known more : List Mismatch) : firsts (known ++ more) = more.foldl addNew (firsts known) := by
  rw [firsts_eq_foldl, firsts_eq_foldl, List.foldl_append]

theorem firsts_concat (found : List Mismatch) (m : Mismatch) : firsts (found ++ [m]) = addNew (firsts found) m :=
  firsts_append found [m]

/-- What is heard at all is heard among the first occurrences. -/
theorem any_firsts (found : List Mismatch) (m : Mismatch) : (firsts found).any (m.same ·) = found.any (m.same ·) := by
  rw [firsts_eq_foldl, any_foldl_addNew, List.nil_append]

theorem firsts_eq_nil_iff : firsts found = [] ↔ found = [] := by
  constructor
  · intro none
    cases found with
    | nil => rfl
    | cons first rest => rw [firsts, List.eraseDupsBy_cons] at none; cases none
  · rintro rfl
    rfl

/-- Where repeats are dropped among what comes later, nothing changes for what is there before. -/
theorem foldl_addNew_firsts (known more : List Mismatch) :
    (firsts more).foldl addNew known = more.foldl addNew known := by
  induction more using List.reverseRecOn with
  | nil => rfl
  | append_singleton rest last ih =>
    rw [firsts_concat, List.foldl_append, List.foldl_cons, List.foldl_nil]
    by_cases repeated : (firsts rest).any (last.same ·) = true
    · have there : (rest.foldl addNew known).any (last.same ·) = true := by
        rw [any_foldl_addNew, List.any_append, ← any_firsts rest, repeated, Bool.or_true]
      rw [addNew_of_any repeated, ih, addNew_of_any there]
    · rw [addNew_of_not_any repeated, List.foldl_append, ih, List.foldl_cons, List.foldl_nil]

theorem firsts_foldl_addNew (known more : List Mismatch) : firsts (more.foldl addNew known) = firsts (known ++ more) := by
  induction more using List.reverseRecOn with
  | nil => rw [List.foldl_nil, List.append_nil]
  | append_singleton rest last ih =>
    rw [List.foldl_append, List.foldl_cons, List.foldl_nil, ← List.append_assoc, firsts_concat, ← ih]
    by_cases repeated : (rest.foldl addNew known).any (last.same ·) = true
    · rw [addNew_of_any repeated, addNew_of_any (by rwa [any_firsts])]
    · rw [addNew_of_not_any repeated, firsts_concat]

/-- What was joined to a list before is joined as it would be by itself. -/
theorem foldl_addNew_foldl_addNew (known more later : List Mismatch) :
    (later.foldl addNew more).foldl addNew known = later.foldl addNew (more.foldl addNew known) := by
  calc (later.foldl addNew more).foldl addNew known
      = (firsts (later.foldl addNew more)).foldl addNew known := (foldl_addNew_firsts ..).symm
    _ = (firsts (more ++ later)).foldl addNew known := by rw [firsts_foldl_addNew]
    _ = (more ++ later).foldl addNew known := foldl_addNew_firsts ..
    _ = later.foldl addNew (more.foldl addNew known) := List.foldl_append

end Join

/-- A list that says all that another one says, in its order, with the repeats or without some of them. -/
structure Covers (found remarks : List Mismatch) : Prop where
  part : found.Sublist remarks
  firsts_eq : firsts found = firsts remarks

namespace Covers

variable {found more remarks others : List Mismatch}

theorem refl (found : List Mismatch) : Covers found found := ⟨List.Sublist.refl found, rfl⟩

theorem eq_nil_iff (covers : Covers found remarks) : found = [] ↔ remarks = [] := by
  rw [← firsts_eq_nil_iff, covers.firsts_eq, firsts_eq_nil_iff]

theorem append (first : Covers found remarks) (second : Covers more others) :
    Covers (found ++ more) (remarks ++ others) where
  part := first.part.append second.part
  firsts_eq := by
    rw [firsts_append, firsts_append, first.firsts_eq, ← foldl_addNew_firsts, second.firsts_eq, foldl_addNew_firsts]

/-- Dropping what was said before leaves all that is said. -/
theorem join (first : Covers found remarks) (second : Covers more others) :
    Covers (more.foldl Failure.addNew found) (remarks ++ others) where
  part := (foldl_addNew_sublist found more).trans (first.append second).part
  firsts_eq := (firsts_foldl_addNew found more).trans (first.append second).firsts_eq

end Covers

end Mismatch

/-- Failures may be joined from the left or from the right. -/
theorem Failure.absorb_assoc (f g h : Failure) : (f.absorb g).absorb h = f.absorb (g.absorb h) := by
  cases f with
  | fatal e => rfl
  | invalid known => cases g with
    | fatal e => rfl
    | invalid more => cases h with
      | fatal e => rfl
      | invalid later => exact congrArg Failure.invalid (Mismatch.foldl_addNew_foldl_addNew known more later).symm

end Conform
