import Conform.Proofs.TypeTree

namespace Conform

variable {ω : Type}

namespace Shape

/-- Whether an input is accepted as a whole. -/
def accepts (s : Shape ω) (input : Json) : Bool := (s.decode input).isOk

/-- A shape that takes an input to its value, or rejects it, wherever the input stands. -/
def Leaf (value : Json → Decoded ω) (s : Shape ω) : Prop :=
  ∀ input, (∀ here, s.validate input here = .ok (value input)) ∨
    ∃ expected, ∀ here, s.validate input here = .error (.single here expected (some input))

namespace Leaf

variable {value : Json → Decoded ω} {s : Shape ω} {input : Json} {here : Position}

theorem of_ok (leaf : s.Leaf value) {d : Decoded ω} (accepted : s.validate input here = .ok d) :
    s.accepts input = true ∧ d = value input := by
  rcases leaf input with always | ⟨expected, never⟩
  · rw [always here] at accepted
    exact ⟨by rw [accepts, decode, always]; rfl, (Except.ok.inj accepted).symm⟩
  · rw [never here] at accepted
    cases accepted

/-- A leaf rejects with one line, at its own place, and never fails otherwise. -/
theorem of_error (leaf : s.Leaf value) {f : Failure} (rejected : s.validate input here = .error f) :
    s.accepts input = false ∧ ∃ expected, f = .single here expected (some input) := by
  rcases leaf input with always | ⟨expected, never⟩
  · rw [always here] at rejected
    cases rejected
  · rw [never here] at rejected
    exact ⟨by rw [accepts, decode, never]; rfl, expected, (Except.error.inj rejected).symm⟩

theorem reporting (leaf : s.Leaf value) : s.Reporting := by
  intro input here found rejected
  obtain ⟨_, expected, equal⟩ := leaf.of_error rejected
  cases equal
  exact List.cons_ne_nil _ _

end Leaf

theorem leaf_scalar (kind : Scalar) : (scalar kind : Shape ω).Leaf .ofJson := by
  intro input
  cases kind <;> cases input <;>
    first
    | exact Or.inl fun _ => rfl
    | exact Or.inr ⟨_, fun _ => rfl⟩

theorem leaf_refine {base : Shape ω} {value : Json → Decoded ω} (leaf : base.Leaf value) (name : String)
    (fits : Decoded ω → Bool) : (refine name base fits).Leaf value := by
  intro input
  rcases leaf input with always | ⟨expected, never⟩
  · cases fit : fits (value input) with
    | true => exact Or.inl fun here => by simp [validate, always here, fit]
    | false => exact Or.inr ⟨name, fun here => by simp [validate, always here, fit]⟩
  · exact Or.inr ⟨expected, fun here => by simp [validate, never here]⟩

/-- A refined leaf recognizes what its base recognizes and the condition allows. -/
theorem Leaf.accepts_refine {base : Shape ω} {value : Json → Decoded ω} (leaf : base.Leaf value) (name : String)
    (fits : Decoded ω → Bool) (input : Json) :
    (refine name base fits).accepts input = (base.accepts input && fits (value input)) := by
  rcases leaf input with always | ⟨expected, never⟩
  · cases fit : fits (value input) <;> simp [accepts, decode, validate, always, fit, Except.isOk, Except.toBool]
  · simp [accepts, decode, validate, never, Except.isOk, Except.toBool]

end Shape

/-- What stands for an input of a scalar kind. -/
def Scalar.holds : Scalar → Json → Bool
  | string, .str _ => true
  | number, .num _ => true
  | boolean, .bool _ => true
  | null, .null => true
  | _, _ => false

theorem Scalar.accepts_eq_holds (kind : Scalar) (input : Json) :
    (Shape.scalar kind : Shape ω).accepts input = kind.holds input := by
  cases kind <;> cases input <;> rfl

theorem is_scalar_ofJson (kind : Scalar) (input : Json) :
    (Shape.scalar kind : Shape ω).is (.ofJson input) = kind.holds input := by
  cases kind <;> cases input <;> rfl

namespace Stock

/-- What an accepted input of a stock type becomes: a timestamp becomes the moment that it names. -/
def value : Stock → Json → Decoded ω
  | date, .str text =>
    match Instant.read? text with
    | some moment => .constructed "Date" (.str text) (.instant moment)
    | none => .str text
  | _, input => .ofJson input

/-- A date is a leaf whose value is the moment that the text reads as. -/
theorem leaf_date : (Builtin.date : Shape ω).Leaf date.value := by
  intro input
  cases input with
  | str text =>
    cases known : Instant.read? text with
    | some moment =>
      exact Or.inl fun here => by simp [Builtin.date, Builtin.date.validate, Shape.validate, value, known]
    | none => exact Or.inr ⟨"Date", fun here => by simp [Builtin.date, Builtin.date.validate, Shape.validate, known]⟩
  | _ => exact Or.inr ⟨"Date", fun _ => rfl⟩

theorem leaf_shape (kind : Stock) : (kind.shape : Shape ω).Leaf kind.value := by
  cases kind with
  | date => exact leaf_date
  | latitude | longitude => exact Shape.leaf_refine (Shape.leaf_scalar .number) _ _
  | nonEmptyString => exact Shape.leaf_refine (Shape.leaf_scalar .string) _ _

end Stock

end Conform
