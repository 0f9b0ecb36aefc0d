import Conform.Filter.Value

namespace Conform

inductive Comparison where
  | equal
  | notEqual
  | less
  | lessOrEqual
  | greater
  | greaterOrEqual
  deriving DecidableEq, Repr

def Comparison.holds : Comparison → Ordering → Bool
  | equal, o => o == .eq
  | notEqual, o => o != .eq
  | less, o => o == .lt
  | lessOrEqual, o => o != .gt
  | greater, o => o == .gt
  | greaterOrEqual, o => o != .lt

mutual
/-- A filter of the jq language: it turns a value into any number of values. -/
inductive Filter where
  | identity
  | constant (value : Filter.Value)
  | path (base : Filter) (steps : List PathStep)
  | attempt (body : Filter)
  | pipe (first second : Filter)
  | both (first second : Filter)
  | collect (body : Filter)
  | object (entries : List (Filter × Filter))
  | add (left right : Filter)
  | compare (comparison : Comparison) (left right : Filter)
  | negate (body : Filter)
  | call (name : String) (arguments : List Filter)
  | variable (name : String)

/-- A step of a path. The failure of an optional step is passed over in silence. -/
inductive PathStep where
  | index (key : Filter) (optional : Bool)
  | each (optional : Bool)
  | since (low : Filter) (optional : Bool)
  | till (high : Filter) (optional : Bool)
  | between (low high : Filter) (optional : Bool)
end

namespace Filter

/-- The outputs of a filter in order; one that failed is none. -/
abbrev Outputs := List (Option Value)

namespace Outputs

/-- Goes on from each output that did not fail. -/
def andThen (outputs : Outputs) (next : Value → Outputs) : Outputs :=
  outputs.flatMap fun
    | some value => next value
    | none => [none]

/-- Joins each output with each of the others; it fails where one of the two did. The first vary
slowest. -/
def pair (outputs others : Outputs) (join : Value → Value → Option Value) : Outputs :=
  outputs.flatMap fun first => others.map fun second => do join (← first) (← second)

end Outputs

/-- A step of a path whose key or bounds are known. -/
inductive Stride where
  | item (key : Value)
  | children
  | part (low high : Option Value)

/-- What a step leads to. -/
def Stride.follow : Stride → Value → Outputs
  | .item key, value => [value.index? key]
  | .children, value =>
    match value.children? with
    | some inner => inner.map some
    | none => [none]
  | .part low high, value => [value.slice? low high]

/-- What a path leads to. -/
def follow : List (Stride × Bool) → Value → Outputs
  | [], value => [some value]
  | (stride, optional) :: rest, value =>
    let found := stride.follow value
    Outputs.andThen (if optional then found.filter Option.isSome else found) (follow rest)

/-- The names that may be called, with the number of their arguments. -/
def known : List (String × Nat) :=
  [("select", 1), ("map", 1), ("length", 0), ("keys", 0), ("empty", 0), ("error", 0), ("error", 1),
    ("nan", 0), ("infinite", 0)]

def callConstant : String → Value → Outputs
  | "length", input => [input.length?]
  | "keys", input => [input.keys?]
  | "empty", _ => []
  | "nan", _ => [some (.real .undefined)]
  | "infinite", _ => [some (.real (.infinite false))]
  | _, _ => [none]

mutual
/-- The outputs for an input. Where parts have several outputs each, those of the first part vary
slowest. -/
def run : Filter → Value → Outputs
  | .identity, input => [some input]
  | .constant value, _ => [some value]
  | .path base steps, input =>
    (run base input).andThen fun value =>
      (ways steps input).flatMap fun
        | some way => follow way value
        | none => [none]
  | .attempt body, input => (run body input).takeWhile Option.isSome
  | .pipe first second, input => (run first input).andThen (run second)
  | .both first second, input => run first input ++ run second input
  | .collect body, input => [((run body input).mapM id).map .arr]
  | .object entries, input => runEntries entries input
  | .add left right, input => (run left input).pair (run right input) Value.add?
  | .compare comparison left right, input =>
    (run left input).pair (run right input) fun a b =>
      some (.bool (comparison.holds (a.compare b)))
  | .negate body, input => (run body input).andThen fun value => [value.negate?]
  | .call name [], input => callConstant name input
  | .call "select" [test], input =>
    (run test input).andThen fun value => if value.isTrue then [some input] else []
  | .call "map" [body], input =>
    match input.children? with
    | some children => [((children.flatMap (run body)).mapM id).map .arr]
    | none => [none]
  | .call "error" [body], input => ((run body input).andThen fun _ => [none]) ++ [some input]
  | .call _ _, _ => [none]
  | .variable _, _ => [none]

/-- The objects made of one field for each entry; a later field replaces an earlier one of its
name. -/
def runEntries : List (Filter × Filter) → Value → Outputs
  | [], _ => [some (.obj [])]
  | (key, body) :: rest, input =>
    ((run key input).pair (run body input) Value.single?).pair (runEntries rest input) Value.add?

/-- The paths that a path may be, one for each choice among the outputs of its keys and bounds. A
choice of one that failed is none. -/
def ways : List PathStep → Value → List (Option (List (Stride × Bool)))
  | [], _ => [some []]
  | step :: rest, input =>
    (strides step input).flatMap fun first =>
      (ways rest input).map fun others => do return (← first) :: (← others)

def strides : PathStep → Value → List (Option (Stride × Bool))
  | .index key optional, input =>
    (run key input).map fun key => key.map fun key => (.item key, optional)
  | .each optional, _ => [some (.children, optional)]
  | .since low optional, input =>
    (run low input).map fun low => low.map fun low => (.part (some low) none, optional)
  | .till high optional, input =>
    (run high input).map fun high => high.map fun high => (.part none (some high), optional)
  | .between low high optional, input =>
    (run low input).flatMap fun low =>
      (run high input).map fun high => do
        return (.part (some (← low)) (some (← high)), optional)
end

mutual
/-- The names that are called or used but not known, in the order of their use. -/
def undefinedNames : Filter → List String
  | .identity | .constant _ => []
  | .path base steps => undefinedNames base ++ undefinedInSteps steps
  | .attempt body | .collect body | .negate body => undefinedNames body
  | .pipe first second | .both first second => undefinedNames first ++ undefinedNames second
  | .object entries => undefinedInEntries entries
  | .add left right | .compare _ left right => undefinedNames left ++ undefinedNames right
  | .call name arguments =>
    undefinedInArguments arguments ++
      (if (name, arguments.length) ∈ known then [] else [name])
  | .variable name => ["$" ++ name]

def undefinedInSteps : List PathStep → List String
  | [] => []
  | step :: rest => undefinedInStep step ++ undefinedInSteps rest

def undefinedInStep : PathStep → List String
  | .index key _ => undefinedNames key
  | .each _ => []
  | .since bound _ | .till bound _ => undefinedNames bound
  | .between low high _ => undefinedNames low ++ undefinedNames high

def undefinedInArguments : List Filter → List String
  | [] => []
  | argument :: rest => undefinedNames argument ++ undefinedInArguments rest

def undefinedInEntries : List (Filter × Filter) → List String
  | [] => []
  | (key, body) :: rest => undefinedNames key ++ undefinedNames body ++ undefinedInEntries rest
end

end Filter

end Conform
