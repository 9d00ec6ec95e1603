/-!
# Places in a document

A path names a node of a document by the steps that lead to it from the root: the key of an entry
or the index of a list element. Declarations are told apart by the place where they stand, and a
rejected document is reported with the path of the node at fault.
-/

namespace WhileAsm

/-- One step down a document: to the value under a key, or to an element of a list. -/
inductive PathStep where
  | key (name : String)
  | index (i : Nat)
  deriving DecidableEq, Repr, Inhabited

def PathStep.text : PathStep → String
  | .key k => "." ++ k
  | .index i => "[" ++ toString i ++ "]"

/-- The steps from the root, outermost first. -/
abbrev Path := List PathStep

namespace Path

/-- The path as it is written in reports; the root is called `program`. -/
def text (p : Path) : String :=
  p.foldl (fun s step => s ++ step.text) "program"

/-- The place of the value under `k` in the mapping at `p`. -/
def key (p : Path) (k : String) : Path := p ++ [.key k]

/-- The place of the `i`-th element of the list at `p`. -/
def index (p : Path) (i : Nat) : Path := p ++ [.index i]

end Path

end WhileAsm
