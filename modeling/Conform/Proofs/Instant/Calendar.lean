import Conform.Instant
import Mathlib.Algebra.BigOperators.Group.List.Basic
import Mathlib.Algebra.GroupWithZero.Nat

namespace Conform.Day

theorem isValid_iff {d : Day} :
    d.isValid ↔ 1 ≤ d.month ∧ 1 ≤ d.day ∧
      ∃ length, (monthLengths (isLeap d.year))[d.month - 1]? = some length ∧ d.day ≤ length := by
  unfold isValid
  split <;> simp_all [and_assoc]

theorem length_le_of_mem_monthLengths {leap : Bool} {length : Nat}
    (member : length ∈ monthLengths leap) : length ≤ 31 := by
  cases leap <;> revert length <;> decide

theorem month_le_of_isValid {d : Day} (valid : d.isValid) : d.month ≤ 12 := by
  obtain ⟨_, _, length, atMonth, _⟩ := isValid_iff.mp valid
  have inside : d.month - 1 < 12 := (List.getElem?_eq_some_iff.mp atMonth).1
  omega

theorem day_le_of_isValid {d : Day} (valid : d.isValid) : d.day ≤ 31 := by
  obtain ⟨_, _, length, atMonth, bound⟩ := isValid_iff.mp valid
  exact Nat.le_trans bound (length_le_of_mem_monthLengths (List.mem_of_getElem? atMonth))

theorem sum_monthLengths (leap : Bool) :
    (monthLengths leap).sum = if leap then 366 else 365 := by
  cases leap <;> rfl

/-- A year is as long as its months together. -/
theorem beforeYear_succ (year : Int) :
    beforeYear (year + 1) = beforeYear year + (monthLengths (isLeap year)).sum := by
  rw [sum_monthLengths]
  unfold beforeYear isLeap
  split <;> simp_all <;> omega

theorem beforeYear_yearOf (n : Int) :
    beforeYear (yearOf n) ≤ n ∧ n < beforeYear (yearOf n + 1) := by
  unfold yearOf
  -- The guess divides by the length of a mean year, so it misses by one year at most.
  dsimp only
  split_ifs
  · rw [Int.sub_add_cancel]
    unfold beforeYear at *
    omega
  all_goals unfold beforeYear at *; omega

theorem beforeYear_mono {a b : Int} (before : a ≤ b) : beforeYear a ≤ beforeYear b := by
  unfold beforeYear
  omega

theorem le_yearOf_iff {year n : Int} : year ≤ yearOf n ↔ beforeYear year ≤ n := by
  obtain ⟨started, notOver⟩ := beforeYear_yearOf n
  constructor
  · intro before
    exact Int.le_trans (beforeYear_mono before) started
  · intro reached
    by_contra later
    exact absurd (beforeYear_mono (show yearOf n + 1 ≤ year by omega)) (by omega)

/-- A day of the year is looked up month by month: the months before it, and its place in its own. -/
theorem monthAndDay_eq {lengths : List Nat} {rest : Nat} (inside : rest < lengths.sum)
    (month : Nat) : ∃ before length after, lengths = before ++ length :: after ∧
      before.sum ≤ rest ∧ rest - before.sum < length ∧
      monthAndDay month rest lengths = (month + before.length, rest - before.sum + 1) := by
  induction lengths generalizing rest month with
  | nil => simp at inside
  | cons length lengths ih =>
    rw [List.sum_cons] at inside
    by_cases first : rest < length
    · exact ⟨[], length, lengths, rfl, by simp, by simpa using first, by simp [monthAndDay, first]⟩
    · have later : rest - length < lengths.sum := by omega
      obtain ⟨before, own, after, rfl, reached, fits, found⟩ := ih later (month + 1)
      refine ⟨length :: before, own, after, rfl, ?_, ?_, ?_⟩
      · rw [List.sum_cons]; omega
      · rw [List.sum_cons]; omega
      · rw [monthAndDay, if_neg first, found, List.sum_cons, List.length_cons]
        congr 1 <;> omega

/-- The day of a number: a year that holds the number, and within it the months before the day. -/
theorem ofNumber_eq (n : Int) : ∃ before length after,
    monthLengths (isLeap (ofNumber n).year) = before ++ length :: after ∧
    (ofNumber n).month = before.length + 1 ∧
    (ofNumber n).day ≤ length ∧ 1 ≤ (ofNumber n).day ∧
    beforeYear (ofNumber n).year + before.sum + (ofNumber n).day = n + beforeYear 1970 + 1 := by
  obtain ⟨started, notOver⟩ := beforeYear_yearOf (n + beforeYear 1970)
  rw [beforeYear_succ] at notOver
  have inside : (n + beforeYear 1970 - beforeYear (yearOf (n + beforeYear 1970))).toNat <
      (monthLengths (isLeap (yearOf (n + beforeYear 1970)))).sum := by omega
  obtain ⟨before, length, after, split, reached, fits, found⟩ := monthAndDay_eq inside 1
  have day : ofNumber n = ⟨yearOf (n + beforeYear 1970), 1 + before.length,
      (n + beforeYear 1970 - beforeYear (yearOf (n + beforeYear 1970))).toNat - before.sum + 1⟩ := by
    simp only [ofNumber, found]
  rw [day]
  exact ⟨before, length, after, split, Nat.add_comm .., by dsimp only; omega,
    by dsimp only; omega, by dsimp only; omega⟩

theorem isValid_ofNumber (n : Int) : (ofNumber n).isValid := by
  obtain ⟨before, length, after, months, month, fits, positive, -⟩ := ofNumber_eq n
  exact isValid_iff.mpr ⟨by omega, positive, length, by simp [months, month], fits⟩

/-- A day of the calendar lies in its year. -/
theorem number_in_year {d : Day} (valid : d.isValid) :
    beforeYear d.year ≤ d.number + beforeYear 1970 ∧ d.number + beforeYear 1970 < beforeYear (d.year + 1) := by
  obtain ⟨_, positive, length, atMonth, fits⟩ := isValid_iff.mp valid
  obtain ⟨inside, rfl⟩ := List.getElem?_eq_some_iff.mp atMonth
  have upTo := List.sum_take_succ (monthLengths (isLeap d.year)) (d.month - 1) inside
  have whole := List.sum_take_add_sum_drop (monthLengths (isLeap d.year)) (d.month - 1 + 1)
  have earlier : ((monthLengths (isLeap d.year)).take (d.month - 1)).foldr (· + ·) 0 =
      ((monthLengths (isLeap d.year)).take (d.month - 1)).sum := List.sum_eq_foldr.symm
  rw [beforeYear_succ]
  unfold number
  simp only [earlier]
  omega

/-- Counting days forth and back. -/
theorem number_ofNumber (n : Int) : (ofNumber n).number = n := by
  obtain ⟨before, length, after, months, month, -, -, total⟩ := ofNumber_eq n
  have earlier : ((monthLengths (isLeap (ofNumber n).year)).take ((ofNumber n).month - 1)).foldr
      (· + ·) 0 = before.sum := by
    simp [months, month, List.sum_eq_foldr]
  unfold number
  simp only [earlier]
  omega

end Conform.Day
