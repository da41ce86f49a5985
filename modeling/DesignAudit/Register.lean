/-!
# Registers

A register keeps one entry for each name, in the order in which the names were first entered. A new
entry for a known name replaces the old one in its place.
-/

namespace DesignAudit

/-- Entries by name, in the order of first entry. -/
structure Register (α : Type) where
  entries : List (String × α) := []
  deriving Repr

namespace Register

variable {α β : Type}

/-- The register without entries. -/
def empty : Register α := ⟨[]⟩

instance : Inhabited (Register α) := ⟨empty⟩

/-- Replaces the entry of a name in a list of entries, or adds it at the end. -/
def put (name : String) (a : α) : List (String × α) → List (String × α)
  | [] => [(name, a)]
  | (n, b) :: rest => if n == name then (name, a) :: rest else (n, b) :: put name a rest

def insert (r : Register α) (name : String) (a : α) : Register α := ⟨put name a r.entries⟩

def get? (r : Register α) (name : String) : Option α := r.entries.lookup name

def getD (r : Register α) (name : String) (default : α) : α := (r.get? name).getD default

def has (r : Register α) (name : String) : Bool := (r.get? name).isSome

/-- The names, in order of first entry. -/
def names (r : Register α) : List String := r.entries.map (·.1)

/-- The entries without their names. -/
def values (r : Register α) : List α := r.entries.map (·.2)

/-- The number of names. -/
def size (r : Register α) : Nat := r.entries.length

/-- Changes the entry of a name, which is made up from `default` if it is missing. -/
def update (r : Register α) (name : String) (default : α) (f : α → α) : Register α :=
  r.insert name (f (r.getD name default))

/-- Enters a list of entries one after the other. -/
def insertAll (r : Register α) (xs : List (String × α)) : Register α :=
  xs.foldl (fun r x => r.insert x.1 x.2) r

/-- The register of a list of entries, later ones replacing earlier ones. -/
def ofList (xs : List (String × α)) : Register α := empty.insertAll xs

end Register

end DesignAudit
