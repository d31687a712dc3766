/-!
# Ordered entries

A map from names to values that remembers the order in which names came in. Setting a name that is
present keeps its place.
-/

namespace VueToSan

abbrev Entries (α : Type) := List (String × α)

namespace Entries

variable {α : Type}

def keys (m : Entries α) : List String := m.map (·.1)

def get? (m : Entries α) (name : String) : Option α := List.lookup name m

def has (m : Entries α) (name : String) : Bool := m.any (·.1 == name)

def swap (m : Entries α) (old : String) (entry : String × α) : Entries α :=
  m.map fun e => if e.1 = old then entry else e

def set (m : Entries α) (name : String) (value : α) : Entries α :=
  if m.has name then m.swap name (name, value) else m ++ [(name, value)]

def erase (m : Entries α) (name : String) : Entries α := m.filter (·.1 != name)

/-- Replaces the name `old` by `new`. The new name takes the place of the old one; when the old one
is absent, or the new one is present, it is set where it stands or at the end. -/
def replace (m : Entries α) (old new : String) (value : α) : Entries α :=
  if m.has old && !(m.erase old).has new then m.swap old (new, value)
  else (m.erase old).set new value

def ofList (entries : List (String × α)) : Entries α :=
  entries.foldl (fun m e => m.set e.1 e.2) []

end Entries

end VueToSan
