/-
Label maps: names with their addresses, in the order in which the names were first bound.

Binding a name again keeps its place and replaces its address.
-/
namespace Asm6502

/-- label names with their addresses, in order of first binding -/
structure Labels where
  entries : List (String × Nat)
  deriving DecidableEq, Repr

namespace Labels

def empty : Labels := ⟨[]⟩

def get? (labels : Labels) (name : String) : Option Nat :=
  labels.entries.lookup name

def contains (labels : Labels) (name : String) : Bool :=
  (labels.get? name).isSome

def size (labels : Labels) : Nat :=
  labels.entries.length

/-- binds `name`: a new name goes to the end, a known one keeps its place and takes the new address -/
def insert (labels : Labels) (name : String) (address : Nat) : Labels :=
  if labels.contains name then
    ⟨labels.entries.map fun entry => if entry.1 = name then (name, address) else entry⟩
  else
    ⟨labels.entries ++ [(name, address)]⟩

/-- the map that binds the given pairs one after the other -/
def ofList (pairs : List (String × Nat)) : Labels :=
  pairs.foldl (fun labels pair => labels.insert pair.1 pair.2) empty

theorem entries_insert_of_not_contains (labels : Labels) (name : String) (address : Nat)
    (h : labels.contains name = false) :
    (labels.insert name address).entries = labels.entries ++ [(name, address)] := by
  simp [insert, h]

end Labels

end Asm6502
