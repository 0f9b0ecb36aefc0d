namespace Conform

universe u

/-- Entries by name, in the order in which they are kept. -/
abbrev Fields (α : Type u) := List (String × α)

namespace Fields

variable {α : Type u}

def keys (fields : Fields α) : List String := fields.map Prod.fst

/-- The value of the first entry of that name. -/
def get? (key : String) : Fields α → Option α
  | [] => none
  | (k, v) :: rest => if k = key then some v else get? key rest

/-- The value of the last entry of that name. -/
def last? (key : String) : Fields α → Option α
  | [] => none
  | (k, v) :: rest => (last? key rest).or (if k = key then some v else none)

/-- Replaces the value in its place, or adds the entry at the end. -/
def insert (key : String) (value : α) : Fields α → Fields α
  | [] => [(key, value)]
  | (k, v) :: rest => if k = key then (k, value) :: rest else (k, v) :: insert key value rest

/-- Removes the entry and closes the gap. -/
def erase (key : String) : Fields α → Fields α
  | [] => []
  | (k, v) :: rest => if k = key then rest else (k, v) :: erase key rest

/-- Removes the entry and moves the last entry into its place. -/
def swapErase (key : String) : Fields α → Fields α
  | [] => []
  | (k, v) :: rest =>
    if k = key then
      match rest.getLast? with
      | none => []
      | some last => last :: rest.dropLast
    else (k, v) :: swapErase key rest

/-- Entries in the order of their names. -/
def sort : Fields α → Fields α
  | [] => []
  | entry :: rest => place entry (sort rest)
where
  place (entry : String × α) : Fields α → Fields α
    | [] => [entry]
    | (k, v) :: rest => if k < entry.1 then (k, v) :: place entry rest else entry :: (k, v) :: rest

/-- Every name once: a repeated name keeps its first place and takes the last value. -/
def merge (fields : Fields α) : Fields α :=
  fields.foldl (fun out (k, v) => insert k v out) []

theorem get?_insert_self (key : String) (value : α) (fields : Fields α) :
    get? key (insert key value fields) = some value := by
  induction fields with
  | nil => simp [insert, get?]
  | cons entry rest ih =>
    obtain ⟨k, v⟩ := entry
    by_cases same : k = key <;> simp [insert, get?, same, ih]

theorem get?_insert_of_ne {key other : String} (ne : key ≠ other) (value : α) (fields : Fields α) :
    get? other (insert key value fields) = get? other fields := by
  induction fields with
  | nil => simp [insert, get?, ne]
  | cons entry rest ih =>
    obtain ⟨k, v⟩ := entry
    by_cases same : k = key
    · subst same; simp [insert, get?, ne]
    · simp [insert, get?, same, ih]

end Fields

end Conform
