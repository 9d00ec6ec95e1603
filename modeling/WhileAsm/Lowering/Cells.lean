import WhileAsm.Tree.Basic

/-!
# Storage cells and labels

Every variable has one storage cell for the whole run. A name table gives its declaration the next
name when it is first referred to, and labels are numbered in the order in which they are drawn.
-/

namespace WhileAsm.Lowering

/-- The names that were given to declarations, in that order. -/
abbrev CellNames := List (Path × String)

namespace CellNames

/-- The name of the cell of a declaration, if it has one. -/
def find? (c : CellNames) (place : Path) : Option String := c.lookup place

def names (c : CellNames) : List String := c.map (·.2)

end CellNames

structure NameTable where
  entries : CellNames := []
  /-- The number of the last name that was given. -/
  lastId : Nat := 0
  deriving DecidableEq, Repr, Inhabited

namespace NameTable

/-- How many declarations have a name. -/
def size (t : NameTable) : Nat := t.entries.length

/-- The name of a declaration. On first sight the next number makes one. -/
def nameFor (t : NameTable) (place : Path) : String × NameTable :=
  match t.entries.find? place with
  | some name => (name, t)
  | none =>
    let id := t.lastId + 1
    let name := "_v" ++ toString id
    (name, ⟨t.entries ++ [(place, name)], id⟩)

/-- The name that a declaration is given is the one that it has from then on. -/
theorem find?_nameFor (t : NameTable) (place : Path) :
    (t.nameFor place).2.entries.find? place = some (t.nameFor place).1 := by
  unfold nameFor
  cases h : t.entries.find? place with
  | some name => exact h
  | none =>
    have hnone : t.entries.lookup place = none := h
    simp only [CellNames.find?, List.lookup_append, hnone, Option.none_or, List.lookup_cons_self]

end NameTable

/-- The label that is drawn after `drawn` others. -/
def labelAt (drawn : Nat) : String := "L" ++ toString (drawn + 1)

end WhileAsm.Lowering
