namespace Conform

inductive Key where
  | field (name : String)
  | index (place : Nat)
  deriving DecidableEq, Repr

def Key.text : Key → String
  | .field name => name
  | .index place => toString place

/-- A place inside an input: the name of the whole and the keys that lead from it to the place. -/
structure Position where
  root : String
  keys : List Key
  deriving DecidableEq, Repr

namespace Position

def top (root : String) : Position := ⟨root, []⟩

def key (p : Position) (k : Key) : Position := { p with keys := p.keys ++ [k] }

def field (p : Position) (name : String) : Position := p.key (.field name)

def index (p : Position) (place : Nat) : Position := p.key (.index place)

/-- Adds a key to a path; a point stands between them unless nothing was written yet. -/
def extend (written : String) (k : Key) : String :=
  if written = "" then k.text else written ++ "." ++ k.text

/-- The keys joined by points behind the name of the whole. -/
def path (p : Position) : String := p.keys.foldl extend p.root

theorem path_key (p : Position) (k : Key) : (p.key k).path = extend p.path k := by
  simp [path, key]

end Position

end Conform
