import Conform.Proofs.Repeats
import Conform.Proofs.Shape.Encode

namespace Conform.Shape

variable {ω : Type}

/-- Two shapes that nothing tells apart: they have one name, and they take, reject, write and know the same. -/
structure Indistinct (a b : Shape ω) : Prop where
  name : a.name = b.name
  validate : ∀ input here, a.validate input here = b.validate input here
  encode : ∀ d, a.encode d = b.encode d
  is : ∀ d, a.is d = b.is d

namespace Indistinct

variable {a b c : Shape ω}

theorem refl (s : Shape ω) : s.Indistinct s := ⟨rfl, fun _ _ => rfl, fun _ => rfl, fun _ => rfl⟩

theorem trans (first : a.Indistinct b) (second : b.Indistinct c) : a.Indistinct c where
  name := first.name.trans second.name
  validate input here := (first.validate input here).trans (second.validate input here)
  encode d := (first.encode d).trans (second.encode d)
  is d := (first.is d).trans (second.is d)

end Indistinct

section Append

variable (first later : List (Shape ω)) (d : Decoded ω)

theorem memberNames_append : memberNames (first ++ later) = memberNames first ++ memberNames later := by
  induction first with
  | nil => rfl
  | cons member rest ih => rw [List.cons_append, memberNames, ih, memberNames, List.cons_append]

theorem someIs_append : someIs (first ++ later) d = (someIs first d || someIs later d) := by
  induction first with
  | nil => rfl
  | cons member rest ih => rw [List.cons_append, someIs, ih, someIs, Bool.or_assoc]

/-- The first member that a value belongs to lies in the front or else behind. -/
theorem encodeByFirst_eq_or :
    encodeByFirst (first ++ later) d = (encodeByFirst first d).or (encodeByFirst later d) := by
  induction first with
  | nil => rfl
  | cons member rest ih =>
    rw [List.cons_append, encodeByFirst, encodeByFirst]
    split
    · rfl
    · exact ih

theorem isSome_encodeByFirst : (encodeByFirst first d).isSome = someIs first d := by
  induction first with
  | nil => rfl
  | cons member rest ih =>
    rw [encodeByFirst, someIs]
    cases member.is d with
    | true => rfl
    | false => exact ih

end Append

section Search

variable {input : Json} {here : Position} (known found : List Mismatch) (members later : List (Shape ω))

/-- A search through members goes on behind them where all of them are rejected. -/
theorem validateOthers_append : validateOthers (.invalid known) (members ++ later) input here =
    match validateOthers (.invalid known) members input here with
    | .error (.invalid found) => validateOthers (.invalid found) later input here
    | result => result := by
  induction members generalizing known with
  | nil => rfl
  | cons member rest ih =>
    rw [List.cons_append, validateOthers, validateOthers]
    cases member.validate input here with
    | ok d => rfl
    | error f => cases f with
      | fatal e => rfl
      | invalid more => exact ih (more.foldl Failure.addNew known)

/-- What was found before a search may be joined to what it finds when it is over. -/
theorem validateOthers_absorb : validateOthers ((Failure.invalid known).absorb (.invalid found)) members input here =
    (validateOthers (.invalid found) members input here).mapError (Failure.invalid known).absorb := by
  induction members generalizing found with
  | nil => rfl
  | cons member rest ih =>
    rw [validateOthers, validateOthers]
    cases member.validate input here with
    | ok d => rfl
    | error f => cases f with
      | fatal e => rfl
      | invalid more =>
        show validateOthers (((Failure.invalid known).absorb (.invalid found)).absorb (.invalid more)) rest input
          here = _
        rw [Failure.absorb_assoc]
        exact ih (more.foldl Failure.addNew found)

end Search

section Union

variable {members : List (Shape ω)} {input : Json} {here : Position}

/-- The union of some members does among others what they do one by one. -/
theorem validateOthers_union (some : members ≠ []) (known : List Mismatch) (later : List (Shape ω)) :
    validateOthers (.invalid known) (union members :: later) input here =
      validateOthers (.invalid known) (members ++ later) input here := by
  cases members with
  | nil => exact absurd rfl some
  | cons first rest =>
    rw [validateOthers, validate, validateMembers, List.cons_append, validateOthers]
    cases first.validate input here with
    | ok d => rfl
    | error f => cases f with
      | fatal e => rfl
      | invalid found =>
        have whole := @validateOthers_append ω input here (found.foldl Failure.addNew known) rest later
        have joined := @validateOthers_absorb ω input here known found rest
        simp only [Failure.absorb] at joined ⊢
        rw [whole, joined]
        cases validateOthers (.invalid found) rest input here with
        | ok d => rfl
        | error g => cases g <;> rfl

/-- A union at the front is tried member by member. -/
theorem validateMembers_union (some : members ≠ []) (later : List (Shape ω)) :
    validateMembers (union members :: later) input here = validateMembers (members ++ later) input here := by
  cases members with
  | nil => exact absurd rfl some
  | cons first rest =>
    rw [validateMembers, validate, validateMembers, List.cons_append, validateMembers]
    cases first.validate input here with
    | ok d => rfl
    | error f => cases f with
      | fatal e => rfl
      | invalid found =>
        simp only [validateOthers_append]
        cases validateOthers (.invalid found) rest input here with
        | ok d => rfl
        | error g => cases g <;> rfl

theorem validateMembers_append_union (some : members ≠ []) (before later : List (Shape ω)) :
    validateMembers (before ++ union members :: later) input here =
      validateMembers (before ++ (members ++ later)) input here := by
  cases before with
  | nil => exact validateMembers_union some later
  | cons first rest =>
    have others (known : List Mismatch) : validateOthers (.invalid known) (rest ++ union members :: later) input here =
        validateOthers (.invalid known) (rest ++ (members ++ later)) input here := by
      rw [validateOthers_append, validateOthers_append]
      simp only [validateOthers_union some]
    rw [List.cons_append, List.cons_append, validateMembers, validateMembers]
    simp only [others]

theorem encodeByFirst_append_union (before later : List (Shape ω)) (d : Decoded ω) :
    encodeByFirst (before ++ union members :: later) d = encodeByFirst (before ++ (members ++ later)) d := by
  rw [encodeByFirst_eq_or, encodeByFirst_eq_or, encodeByFirst_eq_or members, encodeByFirst, is, encode,
    ← isSome_encodeByFirst]
  cases encodeByFirst members d <;> rfl

theorem memberNames_ne_nil (some : members ≠ []) : memberNames members ≠ [] := by
  cases members with
  | nil => exact absurd rfl some
  | cons first rest => exact List.cons_ne_nil _ _

/-- The names of a group, joined, stand in the list of names as they would one by one. -/
theorem intercalate_group (separator : String) {names : List String} (some : names ≠ []) (before after : List String) :
    separator.intercalate (before ++ separator.intercalate names :: after) =
      separator.intercalate (before ++ (names ++ after)) := by
  have behind : separator.intercalate (separator.intercalate names :: after) =
      separator.intercalate (names ++ after) := by
    cases after with
    | nil => rw [String.intercalate_singleton, List.append_nil]
    | cons next rest =>
      rw [String.intercalate_cons_cons, String.intercalate_append_of_ne_nil some (List.cons_ne_nil next rest)]
  cases before with
  | nil => exact behind
  | cons first rest =>
    have nonempty : names ++ after ≠ [] := List.append_ne_nil_of_left_ne_nil some after
    rw [String.intercalate_append_of_ne_nil (List.cons_ne_nil first rest) (List.cons_ne_nil _ after), behind,
      String.intercalate_append_of_ne_nil (List.cons_ne_nil first rest) nonempty]

/-- Names are joined by one separator at every depth. -/
theorem name_union_flatten (some : members ≠ []) (before after : List (Shape ω)) :
    (union (before ++ union members :: after)).name = (union (before ++ (members ++ after))).name := by
  simp only [Shape.name, memberNames_append, memberNames]
  exact intercalate_group " | " (memberNames_ne_nil some) _ _

/-- A union may take the members of a union among its own. -/
theorem union_flatten (some : members ≠ []) (before after : List (Shape ω)) :
    (union (before ++ union members :: after)).Indistinct (union (before ++ (members ++ after))) where
  name := name_union_flatten some before after
  validate input here := by
    rw [validate, validate, validateMembers_append_union some, name_union_flatten some]
  encode d := by rw [encode, encode, encodeByFirst_append_union]
  is d := by
    rw [is, is, someIs_append, someIs_append, someIs_append, someIs, is]

/-- One member that is a union alone, or any union among others, may be replaced by its members. -/
theorem oneOf_flatten (some : members ≠ []) (before after : List (Shape ω)) :
    (oneOf (before ++ oneOf members :: after)).Indistinct (oneOf (before ++ (members ++ after))) := by
  match members with
  | [] => exact absurd rfl some
  | [_] => exact .refl _
  | first :: second :: rest =>
    match before, after with
    | [], [] =>
      rw [List.nil_append, List.nil_append, List.append_nil]
      exact .refl _
    | [], _ :: _ => exact union_flatten some [] _
    | [only], after => exact union_flatten some [only] after
    | one :: two :: others, after => exact union_flatten some (one :: two :: others) after

end Union

/-- Shapes, some of them put in groups that are unions of their own, which may hold groups again. -/
inductive Grouped : List (Shape ω) → List (Shape ω) → Prop
  | nil : Grouped [] []
  | single (s : Shape ω) {leaves members : List (Shape ω)} :
      Grouped leaves members → Grouped (s :: leaves) (s :: members)
  | group {inside group leaves members : List (Shape ω)} (some : group ≠ []) :
      Grouped inside group → Grouped leaves members → Grouped (inside ++ leaves) (oneOf group :: members)

/-- A union of groups is the union of what stands in them. -/
theorem Grouped.indistinct {leaves members : List (Shape ω)} (grouped : Grouped leaves members)
    (before after : List (Shape ω)) :
    (oneOf (before ++ (members ++ after))).Indistinct (oneOf (before ++ (leaves ++ after))) := by
  induction grouped generalizing before after with
  | nil => exact .refl _
  | single s _ ih =>
    have later := ih (before ++ [s]) after
    simpa only [List.append_assoc, List.cons_append, List.nil_append] using later
  | @group inside group leaves members some _ _ first later =>
    have opened := oneOf_flatten some before (members ++ after)
    have within := first before (members ++ after)
    have behind := later (before ++ inside) after
    rw [List.append_assoc, List.append_assoc] at behind
    rw [List.cons_append, List.append_assoc]
    exact (opened.trans within).trans behind

/-- A member that is a union may be replaced by its members, in their places among the others; and so any brackets
around groups of members may be left out. The names, the values that are taken, decoded, encoded and known, and all
that is said of an input that is rejected are the same. -/
theorem unions_flatten :
    (∀ before members after : List (Shape ω), members ≠ [] →
      (oneOf (before ++ oneOf members :: after)).Indistinct (oneOf (before ++ (members ++ after)))) ∧
    ∀ leaves members : List (Shape ω), Grouped leaves members → (oneOf members).Indistinct (oneOf leaves) := by
  refine ⟨fun before members after some => oneOf_flatten some before after, fun leaves members grouped => ?_⟩
  have whole := grouped.indistinct [] []
  simpa only [List.nil_append, List.append_nil] using whole

section Scalars

def scalarLeaves : List (Shape Empty) := [.string, .number, .string, .null]

/-- The brackets of `((string | number) | string) | null`. -/
def bracketedScalars : List (Shape Empty) := [.oneOf [.oneOf [.string, .number], .string], .null]

theorem bracketedScalars_grouped : Grouped scalarLeaves bracketedScalars :=
  .group (List.cons_ne_nil _ _) (.group (List.cons_ne_nil _ _) (.single _ (.single _ .nil)) (.single _ .nil))
    (.single _ .nil)

def scalarMismatches (found : Json) : List Mismatch :=
  [⟨"value", "string", some found⟩, ⟨"value", "number", some found⟩, ⟨"value", "null", some found⟩]

/-- The second mention of strings is left out, whether the group that it stands in is inside or not. -/
theorem unions_flatten_scalars :
    [Shape.number, .string] ≠ ([] : List (Shape Empty)) ∧ Grouped scalarLeaves bracketedScalars ∧
    (oneOf [.string, oneOf [.number, .string], .null]).Indistinct (oneOf scalarLeaves) ∧
    (oneOf bracketedScalars).Indistinct (oneOf scalarLeaves) ∧
    (oneOf bracketedScalars).name = "string | number | string | null" ∧
    (oneOf bracketedScalars).validate (.bool true) (.top "value") =
      .error (.invalid (scalarMismatches (.bool true))) := by
  obtain ⟨spliced, bracketed⟩ := @unions_flatten Empty
  have one := spliced [.string] [.number, .string] [.null] (List.cons_ne_nil _ _)
  have all := bracketed _ _ bracketedScalars_grouped
  exact ⟨List.cons_ne_nil _ _, bracketedScalars_grouped, one, all, all.name, all.validate _ _⟩

end Scalars

end Conform.Shape
