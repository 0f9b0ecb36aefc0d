import Conform.Proofs.RoundTrip

namespace Conform

variable {ω : Type}

namespace Json

mutual

/-- A value without any `attrs`, at whatever depth. -/
def stripAttrs : Json → Json
  | .arr items => .arr (stripItems items)
  | .obj fields => .obj (stripFields fields)
  | value => value

def stripItems : List Json → List Json
  | [] => []
  | item :: rest => stripAttrs item :: stripItems rest

def stripFields : List (String × Json) → List (String × Json)
  | [] => []
  | (key, value) :: rest => if key = attrsKey then stripFields rest else (key, stripAttrs value) :: stripFields rest

end

theorem stripItems_eq_map (items : List Json) : stripItems items = items.map stripAttrs := by
  induction items with
  | nil => rfl
  | cons item rest ih => rw [stripItems, ih, List.map_cons]

theorem get?_stripFields {key : String} (different : key ≠ attrsKey) (fields : Fields Json) :
    Fields.get? key (stripFields fields) = (Fields.get? key fields).map stripAttrs := by
  induction fields with
  | nil => rfl
  | cons entry rest ih =>
    obtain ⟨k, v⟩ := entry
    by_cases here : k = key
    · subst here
      simp [stripFields, Fields.get?, different]
    · by_cases dropped : k = attrsKey
      · rw [stripFields, if_pos dropped, ih, Fields.get?, if_neg here]
      · rw [stripFields, if_neg dropped, Fields.get?, if_neg here, ih, Fields.get?, if_neg here]

theorem stripFields_erase (fields : Fields Json) : stripFields (Fields.erase attrsKey fields) = stripFields fields := by
  induction fields with
  | nil => rfl
  | cons entry rest ih =>
    obtain ⟨k, v⟩ := entry
    by_cases dropped : k = attrsKey
    · rw [Fields.erase, if_pos dropped, stripFields, if_pos dropped]
    · rw [Fields.erase, if_neg dropped, stripFields, if_neg dropped, ih, stripFields, if_neg dropped]

theorem stripFields_mapWithKey {f : String → Json → Json} {fields : Fields Json}
    (agree : ∀ entry ∈ fields, (f entry.1 entry.2).stripAttrs = entry.2.stripAttrs) :
    stripFields (Fields.mapWithKey f fields) = stripFields fields := by
  induction fields with
  | nil => rfl
  | cons entry rest ih =>
    obtain ⟨here, later⟩ := List.forall_mem_cons.mp agree
    rw [Fields.mapWithKey_cons, stripFields, stripFields, ih later, here]

end Json

theorem Double.units_unsigned (x : Double) : x.unsigned.units = x.units := by
  rw [unsigned]
  split
  · rename_i zero
    have none : x.significand = 0 := by simpa [isZero] using zero
    simp [units, none, Double.zero]
  · rfl

/-- A bound is the same for a number in any spelling. -/
theorem Builtin.accepts_bounded_normal (name : String) (bound : Nat) (n : Number) :
    (bounded name bound : Shape ω).accepts (.num n.normal) = (bounded name bound : Shape ω).accepts (.num n) := by
  have within (low high : Double) : inRange low high (.num n.normal : Decoded ω) =
      inRange low high (.num n : Decoded ω) := by
    cases n with
    | int value => rfl
    | float x => simp [inRange, Decoded.double?, Number.normal, Number.toDouble?, Double.le, Double.units_unsigned]
  rw [bounded, Shape.number, (Shape.leaf_scalar .number).accepts_refine, (Shape.leaf_scalar .number).accepts_refine]
  exact congrArg (true && ·) (within _ _)

namespace TypeTree

variable {book : Book ω} {t : TypeTree ω}

/-- Whether an input conforms does not depend on any `attrs` in it. -/
theorem WellFormed.conforms_stripAttrs (wellFormed : t.WellFormed book) (input : Json) :
    t.conforms input.stripAttrs = t.conforms input := by
  induction wellFormed generalizing input with
  | scalar kind => cases kind <;> cases input <;> rfl
  | @stock kind _ => cases kind <;> cases input <;> rfl
  | @array element _ ih =>
    cases input with
    | arr items =>
      rw [Json.stripAttrs, Json.stripItems_eq_map, conforms, conforms, List.all_map]
      exact List.all_congr rfl ih
    | _ => rfl
  | @union members _ ih =>
    rw [conforms, conforms, Bool.eq_iff_iff, someConforms_iff, someConforms_iff]
    exact exists_congr fun member => and_congr_right fun inMembers => by rw [ih member inMembers]
  | @record name attrs props nodup reserved _ ih =>
    cases input with
    | obj fields =>
      rw [Json.stripAttrs, conforms, conforms, Bool.eq_iff_iff, propsConform_iff, propsConform_iff]
      refine forall₂_congr fun p member => ?_
      rw [Json.get?_stripFields (name_ne_attrs reserved member)]
      cases Fields.get? p.name fields <;> simp [ih p member]
    | _ => rfl
  | ofClass _ _ ih => exact ih input

/-- Whether an input conforms depends neither on the order of fields nor on the sign of a zero. -/
theorem WellFormed.conforms_normal (wellFormed : t.WellFormed book) {input : Json} (distinct : input.Distinct) :
    t.conforms input.normal = t.conforms input := by
  induction wellFormed generalizing input with
  | scalar kind => cases kind <;> cases input <;> rfl
  | @stock kind _ =>
    cases kind with
    | date | nonEmptyString => cases input <;> rfl
    | latitude | longitude =>
      cases input with
      | num n => exact Builtin.accepts_bounded_normal _ _ n
      | _ => rfl
  | @array element _ ih =>
    cases input with
    | arr items =>
      rw [Json.normal, Json.normalItems_eq_map, conforms, conforms, Bool.eq_iff_iff, List.all_eq_true,
        List.all_eq_true, List.forall_mem_map]
      exact forall₂_congr fun item member => by rw [ih (Json.distinct_arr_iff.mp distinct item member)]
    | _ => rfl
  | @union members _ ih =>
    rw [conforms, conforms, Bool.eq_iff_iff, someConforms_iff, someConforms_iff]
    exact exists_congr fun member => and_congr_right fun inMembers => by rw [ih member inMembers distinct]
  | @record name attrs props nodup reserved _ ih =>
    cases input with
    | obj fields =>
      have nodupKeys := (Json.distinct_obj_iff.mp distinct).1
      rw [Json.normal, Json.normalFields_eq_mapWithKey, conforms, conforms, Bool.eq_iff_iff, propsConform_iff,
        propsConform_iff]
      refine forall₂_congr fun p member => ?_
      rw [Json.get?_sort (Fields.nodup_keys_mapWithKey nodupKeys _), Fields.get?_mapWithKey]
      cases found : Fields.get? p.name fields with
      | none => simp
      | some value => simp [ih p member (distinct.of_get? found)]
    | _ => rfl
  | ofClass _ _ ih => exact ih distinct

theorem normalizeFirst_cases (members : List (TypeTree ω)) (input : Json) :
    normalizeFirst members input = input ∨ ∃ m ∈ members, normalizeFirst members input = m.normalize input := by
  cases first : members.find? (fun m => m.conforms input) with
  | some member => exact Or.inr ⟨member, List.mem_of_find?_eq_some first, normalizeFirst_eq first⟩
  | none => exact Or.inl (normalizeFirst_of_none first)

theorem normalizeProp_cases (props : List (Property (TypeTree ω))) (key : String) (value : Json) :
    normalizeProp props key value = value ∨ ∃ p ∈ props, normalizeProp props key value = p.type.normalize value := by
  rw [normalizeProp_eq]
  cases found : props.find? fun p => p.name = key with
  | some p => exact Or.inr ⟨p, List.mem_of_find?_eq_some found, rfl⟩
  | none => exact Or.inl rfl

/-- Where there are no timestamps, decoding and encoding change nothing but `attrs`. -/
theorem WellFormed.stripAttrs_normalize (timeless : Timeless book) (wellFormed : t.WellFormed book) (input : Json) :
    (t.normalize input).stripAttrs = input.stripAttrs := by
  induction wellFormed generalizing input with
  | scalar kind => rfl
  | @stock kind listed =>
    cases kind with
    | date => exact absurd listed timeless
    | latitude | longitude | nonEmptyString => rfl
  | @array element _ ih =>
    cases input with
    | arr items =>
      rw [normalize, Json.stripAttrs, Json.stripAttrs, Json.stripItems_eq_map, Json.stripItems_eq_map, List.map_map]
      exact congrArg Json.arr (List.map_congr_left fun item _ => ih item)
    | _ => rfl
  | @union members _ ih =>
    rw [normalize]
    rcases normalizeFirst_cases members input with same | ⟨member, inMembers, same⟩
    · rw [same]
    · rw [same, ih member inMembers]
  | @record name attrs props _ _ _ ih =>
    cases input with
    | obj fields =>
      have each : ∀ entry ∈ fields, (normalizeProp props entry.1 entry.2).stripAttrs = entry.2.stripAttrs := by
        intro entry _
        rcases normalizeProp_cases props entry.1 entry.2 with same | ⟨p, member, same⟩
        · rw [same]
        · rw [same, ih p member]
      rw [normalize, Json.stripAttrs, Json.stripAttrs, dropAttrs]
      cases attrs with
      | false => exact congrArg Json.obj (Json.stripFields_mapWithKey each)
      | true => exact congrArg Json.obj ((Json.stripFields_erase _).trans (Json.stripFields_mapWithKey each))
    | _ => rfl
  | ofClass _ _ ih => exact ih input

/-- Normalizing repeats no key. -/
theorem WellFormed.distinct_normalize (wellFormed : t.WellFormed book) {input : Json} (distinct : input.Distinct) :
    (t.normalize input).Distinct := by
  induction wellFormed generalizing input with
  | scalar kind => exact distinct
  | @stock kind _ =>
    cases kind with
    | date =>
      cases input with
      | str text =>
        rw [normalize, Stock.normalize]
        split <;> trivial
      | _ => exact distinct
    | latitude | longitude | nonEmptyString => exact distinct
  | @array element _ ih =>
    cases input with
    | arr items =>
      rw [normalize, Json.distinct_arr_iff, List.forall_mem_map]
      exact fun item member => ih (Json.distinct_arr_iff.mp distinct item member)
    | _ => exact distinct
  | @union members _ ih =>
    rw [normalize]
    rcases normalizeFirst_cases members input with same | ⟨member, inMembers, same⟩
    · rw [same]
      exact distinct
    · rw [same]
      exact ih member inMembers distinct
  | @record name attrs props _ _ _ ih =>
    cases input with
    | obj fields =>
      obtain ⟨nodup, values⟩ := Json.distinct_obj_iff.mp distinct
      -- Each field is left as it is or normalized by one property.
      have each : ∀ entry ∈ Fields.mapWithKey (normalizeProp props) fields, entry.2.Distinct := by
        intro entry member
        obtain ⟨old, inFields, rfl⟩ := Fields.mem_mapWithKey.mp member
        rcases normalizeProp_cases props old.1 old.2 with same | ⟨p, inProps, same⟩
        · rw [same]
          exact values old inFields
        · rw [same]
          exact ih p inProps (values old inFields)
      have nodupNormal := Fields.nodup_keys_mapWithKey nodup (normalizeProp props)
      rw [normalize, Json.distinct_obj_iff]
      refine ⟨nodup_keys_dropAttrs nodupNormal attrs, fun entry member => each entry ?_⟩
      cases attrs with
      | false => exact member
      | true => exact (Fields.erase_sublist attrsKey _).subset member
    | _ => exact distinct
  | ofClass _ _ ih => exact ih distinct

/-- An input and what decoding and encoding make of it conform to the same types. -/
theorem WellFormed.conforms_eq {s : TypeTree ω} (timeless : Timeless book) (other : s.WellFormed book)
    (wellFormed : t.WellFormed book) {x y : Json} (distinct : x.Distinct) (same : y.normal = (t.normalize x).normal) :
    s.conforms y = s.conforms x := by
  have distinctNormal := wellFormed.distinct_normalize distinct
  have distinctOther : y.Distinct := Json.distinct_normal.mp (same ▸ Json.distinct_normal.mpr distinctNormal)
  calc s.conforms y = s.conforms y.normal := (other.conforms_normal distinctOther).symm
    _ = s.conforms (t.normalize x) := by rw [same, other.conforms_normal distinctNormal]
    _ = s.conforms (t.normalize x).stripAttrs := (other.conforms_stripAttrs _).symm
    _ = s.conforms x := by rw [wellFormed.stripAttrs_normalize timeless, other.conforms_stripAttrs]

end TypeTree

end Conform
