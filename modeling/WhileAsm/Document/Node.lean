import WhileAsm.Document.Cursor

/-!
# Document trees

A document is a tree of scalars, sequences and mappings. An alias stands for a node that was given
a name before; it holds that node, unless it lies inside it.
-/

namespace WhileAsm.Document

/-- How the text of a scalar is to be taken: plain text may be a number, a truth value or nothing,
quoted text is a string, and a tag says what the text is. -/
inductive Form where
  | plain
  | quoted
  | tagged (tag : String)
  deriving DecidableEq, Repr, Inhabited

inductive Node where
  | scalar (pos : Position) (text : String) (form : Form)
  | sequence (pos : Position) (items : List Node)
  | mapping (pos : Position) (entries : List (Node × Node))
  | aliased (pos : Position) (name : String) (target : Node)
  /-- An alias inside the node that it names. -/
  | cycle (pos : Position) (name : String)
  deriving Inhabited

namespace Node

def pos : Node → Position
  | scalar p _ _ => p
  | sequence p _ => p
  | mapping p _ => p
  | aliased p _ _ => p
  | cycle p _ => p

/-- The text of a scalar and the name of an alias; collections have none. -/
def text : Node → String
  | scalar _ t _ => t
  | sequence _ _ => ""
  | mapping _ _ => ""
  | aliased _ n _ => n
  | cycle _ n => n

end Node

end WhileAsm.Document
