import Conform.Instant.Text
import Conform.Proofs.Instant.Calendar
import Mathlib.Data.List.Induction
import Mathlib.Data.Option.Basic

namespace Conform

theorem decimalValue_eq_ofDigitChars (digits : List Char) :
    decimalValue digits = Nat.ofDigitChars 10 digits 0 := by
  rw [Nat.ofDigitChars_eq_foldl]
  simp only [decimalValue, digitValue, Nat.mul_comm]

theorem decimalValue_append_zeros (digits : List Char) (count : Nat) :
    decimalValue (digits ++ List.replicate count '0') = 10 ^ count * decimalValue digits := by
  simp only [decimalValue_eq_ofDigitChars, Nat.ofDigitChars_append,
    Nat.ofDigitChars_replicate_zero]

theorem decimalValue_concat (digits : List Char) (last : Char) :
    decimalValue (digits ++ [last]) = decimalValue digits * 10 + digitValue last := by
  simp [decimalValue]

theorem digitValue_lt {digit : Char} (isDigit : digit.isDigit) : digitValue digit < 10 := by
  simp only [Char.isDigit, Bool.and_eq_true, decide_eq_true_eq] at isDigit
  have last : digit.toNat ≤ '9'.toNat := isDigit.2
  simp only [digitValue]
  have : '9'.toNat = 57 := rfl
  have : '0'.toNat = 48 := rfl
  omega

theorem decimalValue_lt {digits : List Char} (allDigits : digits.all Char.isDigit) :
    decimalValue digits < 10 ^ digits.length := by
  induction digits using List.reverseRecOn with
  | nil => decide
  | append_singleton digits last ih =>
    simp only [List.all_append, List.all_cons, List.all_nil, Bool.and_true, Bool.and_eq_true]
      at allDigits
    have front := ih allDigits.1
    have own := digitValue_lt allDigits.2
    rw [decimalValue_concat, List.length_append, List.length_singleton, Nat.pow_succ]
    omega

namespace Instant

theorem all_isDigit_padded (width n : Nat) : (padded width n).all Char.isDigit := by
  rw [List.all_eq_true]
  intro c member
  rcases List.mem_append.mp member with zero | digit
  · rw [(List.mem_replicate.mp zero).2]; rfl
  · exact Nat.isDigit_of_mem_toDigits (by decide) (by decide) digit

theorem decimalValue_padded (width n : Nat) : decimalValue (padded width n) = n := by
  simp only [padded, decimalValue_eq_ofDigitChars, Nat.ofDigitChars_append,
    Nat.ofDigitChars_replicate_zero, Nat.mul_zero, Nat.ofDigitChars_ten_toDigits]

/-- A number of no more digits than the width fills it. -/
theorem length_padded {width n : Nat} (positive : 0 < width) (fits : n < 10 ^ width) :
    (padded width n).length = width := by
  have short := (Nat.length_toDigits_le_iff (by decide) positive).mpr fits
  simp only [padded, List.length_append, List.length_replicate]
  omega

theorem readDigits?_append {digits : List Char} (allDigits : digits.all Char.isDigit)
    (rest : List Char) :
    readDigits? digits.length (digits ++ rest) = some (decimalValue digits, rest) := by
  rw [readDigits?, List.take_left, List.drop_left, if_pos ⟨rfl, allDigits⟩]

/-- What is written at a width is read at that width. -/
theorem readDigits?_padded {width n : Nat} (positive : 0 < width) (fits : n < 10 ^ width)
    (rest : List Char) : readDigits? width (padded width n ++ rest) = some (n, rest) := by
  have read := readDigits?_append (all_isDigit_padded width n) rest
  rwa [length_padded positive fits, decimalValue_padded] at read

theorem bind_readDigits?_padded {α : Type} {width n : Nat} (positive : 0 < width)
    (fits : n < 10 ^ width) (rest : List Char) (next : Nat × List Char → Option α) :
    readDigits? width (padded width n ++ rest) >>= next = next (n, rest) := by
  rw [readDigits?_padded positive fits]
  rfl

theorem readDigits?_lt {count n : Nat} {text rest : List Char}
    (read : readDigits? count text = some (n, rest)) : n < 10 ^ count := by
  simp only [readDigits?, Option.ite_none_right_eq_some, Option.some.injEq, Prod.mk.injEq] at read
  obtain ⟨⟨length, allDigits⟩, rfl, -⟩ := read
  have bound := decimalValue_lt allDigits
  rwa [length] at bound

theorem readDigits?_eq_none {count : Nat} {c : Char} (text : List Char) (sign : ¬ c.isDigit) :
    readDigits? (count + 1) (c :: text) = none := by
  simp [readDigits?, sign]

theorem bind_readOneOf?_cons {α : Type} {letters : List Char} {c : Char} (known : c ∈ letters)
    (rest : List Char) (next : List Char → Option α) :
    readOneOf? letters (c :: rest) >>= next = next rest := by
  rw [readOneOf?, if_pos known]
  rfl

theorem readFraction?_lt {nanos : Nat} {text rest : List Char}
    (read : readFraction? text = some (nanos, rest)) : nanos < 1000000000 := by
  unfold readFraction? at read
  split at read
  · dsimp only at read
    split at read
    · cases read
    · obtain ⟨⟨kept, after⟩, readKept, pair⟩ := Option.map_eq_some_iff.mp read
      cases pair
      exact readDigits?_lt readKept
  · cases read
    decide

/-- A fraction of up to nine digits is filled up to nine. -/
theorem readFraction?_append {digits : List Char} (allDigits : digits.all Char.isDigit)
    (nonempty : digits ≠ []) (short : digits.length ≤ 9) {c : Char} (ends : ¬ c.isDigit)
    (rest : List Char) : readFraction? ('.' :: (digits ++ c :: rest)) =
      some (10 ^ (9 - digits.length) * decimalValue digits, c :: rest) := by
  have taken : (digits ++ c :: rest).takeWhile Char.isDigit = digits := by
    rw [List.takeWhile_append_of_pos (List.all_eq_true.mp allDigits)]
    simp [ends]
  have dropped : (digits ++ c :: rest).dropWhile Char.isDigit = c :: rest := by
    rw [List.dropWhile_append_of_pos (List.all_eq_true.mp allDigits)]
    simp [ends]
  have filled : (digits ++ List.replicate 9 '0').take 9 =
      digits ++ List.replicate (9 - digits.length) '0' := by
    rw [List.take_append, List.take_of_length_le short, List.take_replicate,
      Nat.min_eq_left (Nat.sub_le _ _)]
  have length : (digits ++ List.replicate (9 - digits.length) '0').length = 9 := by
    rw [List.length_append, List.length_replicate]
    omega
  have filledDigits : (digits ++ List.replicate (9 - digits.length) '0').all Char.isDigit := by
    simp [List.all_append, allDigits, List.all_replicate]
  have read := readDigits?_append filledDigits []
  rw [length, List.append_nil, decimalValue_append_zeros] at read
  simp only [readFraction?, taken, dropped, filled, read, List.isEmpty_iff, nonempty, if_false,
    Option.map_some]

theorem readFraction?_padded {millis : Nat} (fits : millis < 1000) {c : Char} (ends : ¬ c.isDigit)
    (rest : List Char) :
    readFraction? ('.' :: (padded 3 millis ++ c :: rest)) = some (millis * 1000000, c :: rest) := by
  have length : (padded 3 millis).length = 3 := length_padded (by decide) fits
  have nonempty : padded 3 millis ≠ [] := List.ne_nil_of_length_eq_add_one length
  rw [readFraction?_append (all_isDigit_padded 3 millis) nonempty (by omega) ends, length,
    decimalValue_padded, Nat.mul_comm]
  rfl

/-- A second holds a thousand million nanoseconds, and the last second of a minute holds twice as
many where it is a leap second. -/
structure Proper (t : Instant) : Prop where
  nanos_lt : t.nanos < 2000000000
  leap : 1000000000 ≤ t.nanos → t.seconds % 60 = 59

/-- A distance from UTC is less than a day either way. -/
theorem readOffset?_lt {offset : Int} {text rest : List Char}
    (read : readOffset? text = some (offset, rest)) : -1440 < offset ∧ offset < 1440 := by
  unfold readOffset? at read
  split at read
  · cases read; decide
  · cases read; decide
  · obtain ⟨_, -, read⟩ := Option.bind_eq_some_iff.mp read
    obtain ⟨⟨hours, _⟩, -, read⟩ := Option.bind_eq_some_iff.mp read
    obtain ⟨_, -, read⟩ := Option.bind_eq_some_iff.mp read
    obtain ⟨⟨minutes, _⟩, -, read⟩ := Option.bind_eq_some_iff.mp read
    obtain ⟨_, inRange, read⟩ := Option.bind_eq_some_iff.mp read
    obtain ⟨hours_lt, minutes_lt⟩ := (Option.guard_eq_some' _).mp inRange
    cases read
    split <;> omega
  · cases read

/-- A year is read from four digits with nothing in front, so a text with a sign is no date. -/
theorem read?_signed {sign : Char} (noDigit : ¬ sign.isDigit) (rest : List Char) :
    read? (String.ofList (sign :: rest)) = none := by
  simp only [read?, String.toList_ofList, readDigits?_eq_none _ noDigit, Option.bind_eq_bind,
    Option.bind_none]

/-- What is read is a day of a year of four digits and a time of it, shifted to UTC by a distance of
whole minutes, less than a day. -/
theorem exists_of_read? {text : String} {t : Instant} (read : read? text = some t) :
    ∃ (date : Day) (hour minute second nanos : Nat) (offset : Int),
      (0 ≤ date.year ∧ date.year ≤ 9999) ∧
      (date.isValid ∧ hour < 24 ∧ minute < 60 ∧ second ≤ 60) ∧ nanos < 1000000000 ∧
      (-1440 < offset ∧ offset < 1440) ∧
      t = ⟨86400 * date.number + 3600 * hour + 60 * minute + (min second 59 : Nat) - 60 * offset,
        if second = 60 then nanos + 1000000000 else nanos⟩ := by
  rw [read?] at read
  obtain ⟨⟨year, _⟩, fourDigits, read⟩ := Option.bind_eq_some_iff.mp read
  obtain ⟨_, -, read⟩ := Option.bind_eq_some_iff.mp read
  obtain ⟨⟨month, _⟩, -, read⟩ := Option.bind_eq_some_iff.mp read
  obtain ⟨_, -, read⟩ := Option.bind_eq_some_iff.mp read
  obtain ⟨⟨day, _⟩, -, read⟩ := Option.bind_eq_some_iff.mp read
  obtain ⟨_, -, read⟩ := Option.bind_eq_some_iff.mp read
  obtain ⟨⟨hour, _⟩, -, read⟩ := Option.bind_eq_some_iff.mp read
  obtain ⟨_, -, read⟩ := Option.bind_eq_some_iff.mp read
  obtain ⟨⟨minute, _⟩, -, read⟩ := Option.bind_eq_some_iff.mp read
  obtain ⟨_, -, read⟩ := Option.bind_eq_some_iff.mp read
  obtain ⟨⟨second, _⟩, -, read⟩ := Option.bind_eq_some_iff.mp read
  obtain ⟨⟨nanos, _⟩, fraction, read⟩ := Option.bind_eq_some_iff.mp read
  obtain ⟨⟨offset, _⟩, distance, read⟩ := Option.bind_eq_some_iff.mp read
  obtain ⟨_, -, read⟩ := Option.bind_eq_some_iff.mp read
  obtain ⟨_, inRange, moment⟩ := Option.bind_eq_some_iff.mp read
  have year_lt : year < 10000 := readDigits?_lt fourDigits
  have bounds := (Option.guard_eq_some' _).mp inRange
  exact ⟨⟨year, month, day⟩, hour, minute, second, nanos, offset, by dsimp only; omega, bounds,
    readFraction?_lt fraction, readOffset?_lt distance, (Option.some.inj moment).symm⟩

theorem proper_of_read? {text : String} {t : Instant} (read : read? text = some t) : t.Proper := by
  obtain ⟨date, hour, minute, second, nanos, offset, -, ⟨_, _, _, small⟩, few, -, rfl⟩ :=
    exists_of_read? read
  constructor
  · dsimp only
    split <;> omega
  · dsimp only
    split <;> omega

/-- Only the shift to UTC carries a moment out of the years 0 to 9999, and by less than a day. -/
theorem near_plainYear_of_read? {text : String} {t : Instant} (read : read? text = some t) :
    -62167219200 - 86400 < t.seconds ∧ t.seconds < 253402300800 + 86400 := by
  obtain ⟨date, hour, minute, second, nanos, offset, ⟨fromZero, upTo⟩, ⟨valid, _, _, _⟩, -, _, rfl⟩ :=
    exists_of_read? read
  obtain ⟨started, notOver⟩ := Day.number_in_year valid
  have first : Day.beforeYear 0 ≤ Day.beforeYear date.year := Day.beforeYear_mono fromZero
  have last : Day.beforeYear (date.year + 1) ≤ Day.beforeYear 10000 :=
    Day.beforeYear_mono (by omega)
  rw [show Day.beforeYear 1970 = 719528 from rfl] at started notOver
  rw [show Day.beforeYear 0 = 0 from rfl] at first
  rw [show Day.beforeYear 10000 = 3652425 from rfl] at last
  dsimp only
  omega

/-- The year in UTC has four digits and is written without a sign. -/
def HasPlainYear (t : Instant) : Prop :=
  0 ≤ (Day.ofNumber (t.seconds / 86400)).year ∧ (Day.ofNumber (t.seconds / 86400)).year ≤ 9999

theorem hasPlainYear_iff {t : Instant} :
    t.HasPlainYear ↔ -62167219200 ≤ t.seconds ∧ t.seconds < 253402300800 := by
  have first := @Day.le_yearOf_iff 0 (t.seconds / 86400 + Day.beforeYear 1970)
  have afterLast := @Day.le_yearOf_iff 10000 (t.seconds / 86400 + Day.beforeYear 1970)
  rw [show Day.beforeYear 0 = 0 from rfl, show Day.beforeYear 1970 = 719528 from rfl] at first
  rw [show Day.beforeYear 10000 = 3652425 from rfl, show Day.beforeYear 1970 = 719528 from rfl]
    at afterLast
  unfold HasPlainYear Day.ofNumber
  rw [show Day.beforeYear 1970 = 719528 from rfl]
  dsimp only
  omega

/-- A year of four digits is written as it is read. -/
theorem renderYear_plain {year : Int} (plain : 0 ≤ year ∧ year ≤ 9999) :
    renderYear year = padded 4 year.toNat :=
  if_pos plain

/-- Any other year is written with a sign in front. -/
theorem renderYear_signed {year : Int} (signed : ¬ (0 ≤ year ∧ year ≤ 9999)) :
    ∃ sign, ¬ sign.isDigit ∧ renderYear year = sign :: padded 4 year.natAbs := by
  refine ⟨if year < 0 then '-' else '+', ?_, if_neg signed⟩
  split <;> decide

/-- The part below a millisecond is not written. -/
theorem render_truncateToMillis (t : Instant) : t.truncateToMillis.render = t.render := by
  have second : t.nanos / 1000000 * 1000000 < 1000000000 ↔ t.nanos < 1000000000 := by omega
  have millis : t.nanos / 1000000 * 1000000 % 1000000000 / 1000000 =
      t.nanos % 1000000000 / 1000000 := by omega
  simp only [render, truncateToMillis, second, millis]

/-- A timestamp in UTC with three digits of a second is read field by field. -/
theorem read?_fields {year month day hour minute second millis : Nat} (fourDigits : year < 10000)
    (valid : (⟨year, month, day⟩ : Day).isValid) (hour_lt : hour < 24) (minute_lt : minute < 60)
    (second_le : second ≤ 60) (millis_lt : millis < 1000) :
    read? (String.ofList (padded 4 year ++ '-' :: padded 2 month ++ '-' :: padded 2 day ++
      'T' :: padded 2 hour ++ ':' :: padded 2 minute ++ ':' :: padded 2 second ++
      '.' :: padded 3 millis ++ ['Z'])) =
    some ⟨86400 * (⟨year, month, day⟩ : Day).number + 3600 * hour + 60 * minute +
        (min second 59 : Nat),
      if second = 60 then millis * 1000000 + 1000000000 else millis * 1000000⟩ := by
  have month_le : month ≤ 12 := Day.month_le_of_isValid valid
  have day_le : day ≤ 31 := Day.day_le_of_isValid valid
  have fraction := readFraction?_padded millis_lt (show ¬ 'Z'.isDigit by decide) []
  have utc : readOffset? ['Z'] = some (0, []) := rfl
  have inRange : (⟨year, month, day⟩ : Day).isValid ∧ hour < 24 ∧ minute < 60 ∧ second ≤ 60 :=
    ⟨valid, hour_lt, minute_lt, second_le⟩
  simp only [read?, String.toList_ofList, List.append_assoc, List.cons_append]
  -- Each field is read before the rest of the reader is looked at.
  simp (disch := first | omega | decide) only [↓bind_readDigits?_padded, ↓bind_readOneOf?_cons]
  rw [fraction]
  simp [utc, guard, inRange]

/-- What is written is read back as the moment without the part below a millisecond. -/
theorem read?_render {t : Instant} (proper : t.Proper) (plain : t.HasPlainYear) :
    read? t.render = some t.truncateToMillis := by
  obtain ⟨few, leap⟩ := proper
  have valid := Day.isValid_ofNumber (t.seconds / 86400)
  have number := Day.number_ofNumber (t.seconds / 86400)
  unfold HasPlainYear at plain
  simp only [render, renderYear_plain plain]
  generalize Day.ofNumber (t.seconds / 86400) = date at *
  have isDate : (⟨date.year.toNat, date.month, date.day⟩ : Day) = date := by
    rw [Int.toNat_of_nonneg plain.1]
  rw [read?_fields (by omega) (by rwa [isDate]) (by omega) (by omega) (by split <;> omega)
    (by omega), isDate, number, truncateToMillis]
  congr 2
  · split <;> omega
  · split_ifs <;> omega

/-- A year that is written with a sign is not read back. -/
theorem read?_render_eq_none {t : Instant} (signed : ¬ t.HasPlainYear) :
    read? t.render = none := by
  obtain ⟨sign, noDigit, written⟩ := renderYear_signed signed
  simp only [render, written, List.cons_append]
  exact read?_signed noDigit _

/-- A moment is read back exactly when its year has four digits, to the millisecond. -/
theorem read?_render_eq_some_iff {t back : Instant} (proper : t.Proper) :
    read? t.render = some back ↔ t.HasPlainYear ∧ back = t.truncateToMillis := by
  by_cases plain : t.HasPlainYear
  · rw [read?_render proper plain]
    simp [plain, eq_comm]
  · rw [read?_render_eq_none plain]
    simp [plain]

end Instant

end Conform
