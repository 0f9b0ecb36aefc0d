import Conform.Builtin
import Conform.Proofs.Instant.Text

namespace Conform.Builtin

variable {ω : Type}

/-- The instance that a text becomes, with the moment that it reads as. -/
def dateInstance (text : String) (moment : Instant) : Decoded ω :=
  .constructed "Date" (.str text) (.instant moment)

/-- A text is a date exactly when it reads as a moment. -/
theorem decode_date_eq_ok_iff {text : String} {d : Decoded ω} :
    date.decode (.str text) = .ok d ↔
      ∃ moment, Instant.read? text = some moment ∧ d = dateInstance text moment := by
  unfold Shape.decode date Shape.validate date.validate
  dsimp only
  cases read : Instant.read? text with
  | none => simp
  | some moment => simp [dateInstance, eq_comm]

theorem encode_dateInstance (text : String) (moment : Instant) :
    date.encode (dateInstance text moment : Decoded ω) = .str moment.render :=
  rfl

theorem decode_encode_date_eq_ok_iff {moment : Instant} (proper : moment.Proper) (text : String)
    {again : Decoded ω} :
    date.decode (date.encode (dateInstance text moment : Decoded ω)) = .ok again ↔
      moment.HasPlainYear ∧ again = dateInstance moment.render moment.truncateToMillis := by
  simp only [encode_dateInstance, decode_date_eq_ok_iff, Instant.read?_render_eq_some_iff proper,
    and_assoc, exists_eq_left, exists_and_left]

/-- The encoded date is accepted again exactly when the year of its moment has four digits in UTC:
an offset can push the first hours of the year 0 and the last of the year 9999 out of them. Where
it is accepted, it is the same moment to the millisecond, and is encoded as it stands. -/
theorem encoded_date_accepted_iff {text : String} {d : Decoded ω}
    (accepted : date.decode (.str text) = .ok d) :
    ∃ moment, Instant.read? text = some moment ∧ d.instant? = some moment ∧
      ((∃ again : Decoded ω, date.decode (date.encode d) = .ok again) ↔ moment.HasPlainYear) ∧
      ∀ again : Decoded ω, date.decode (date.encode d) = .ok again →
        again.instant? = some moment.truncateToMillis ∧ date.encode again = date.encode d := by
  obtain ⟨moment, read, rfl⟩ := decode_date_eq_ok_iff.mp accepted
  have proper := Instant.proper_of_read? read
  refine ⟨moment, read, rfl, ?_, fun again decoded => ?_⟩
  · simp only [decode_encode_date_eq_ok_iff proper, exists_and_left, exists_eq, and_true]
  · obtain ⟨-, rfl⟩ := (decode_encode_date_eq_ok_iff proper text).mp decoded
    rw [encode_dateInstance, encode_dateInstance, Instant.render_truncateToMillis]
    exact ⟨rfl, rfl⟩

/-- A leap second at the end of a year whose offset carries it into the next one. -/
theorem encoded_date_accepted_iff_leap :
    ∃ d again : Decoded Empty,
      date.decode (.str "2016-12-31T23:59:60.123456789-01:30") = .ok d ∧
      date.encode d = .str "2017-01-01T01:29:60.123Z" ∧
      date.decode (date.encode d) = .ok again ∧
      again.instant? = some ⟨1483234199, 1123000000⟩ ∧ date.encode again = date.encode d := by
  have accepted : date.decode (.str "2016-12-31T23:59:60.123456789-01:30") = .ok
      (dateInstance "2016-12-31T23:59:60.123456789-01:30" ⟨1483234199, 1123456789⟩ :
        Decoded Empty) := rfl
  obtain ⟨moment, -, own, accepts, back⟩ := encoded_date_accepted_iff accepted
  cases own
  obtain ⟨again, decoded⟩ := accepts.mpr (Instant.hasPlainYear_iff.mpr (by decide))
  exact ⟨_, again, accepted, rfl, decoded, back again decoded⟩

/-- The first hour of the year 0 east of Greenwich lies in the year before, which is written with a
sign. -/
theorem early_date_not_accepted :
    ∃ d : Decoded Empty, date.decode (.str "0000-01-01T00:00:00+01:00") = .ok d ∧
      date.encode d = .str "-0001-12-31T23:00:00.000Z" ∧
      ∀ again : Decoded Empty, date.decode (date.encode d) ≠ .ok again := by
  have read : Instant.read? "0000-01-01T00:00:00+01:00" = some ⟨-62167222800, 0⟩ := by decide
  have written : Instant.render ⟨-62167222800, 0⟩ = "-0001-12-31T23:00:00.000Z" := by decide
  refine ⟨_, decode_date_eq_ok_iff.mpr ⟨_, read, rfl⟩, congrArg Json.str written,
    fun again decoded => ?_⟩
  have plain := ((decode_encode_date_eq_ok_iff ⟨by decide, by decide⟩ _).mp decoded).1
  exact absurd (Instant.hasPlainYear_iff.mp plain) (by decide)

end Conform.Builtin
