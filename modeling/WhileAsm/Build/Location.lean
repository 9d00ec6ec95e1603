/-!
# File locations

Locations are texts whose pieces are set apart by slashes. A clean location has no empty piece and
no `.`, and a `..` only where it leads above the start; every other `..` cancels the piece before it.
-/

namespace WhileAsm.Build.Location

/-- The text between two slashes. -/
abbrev Piece := List Char

def here : Piece := ['.']

def parent : Piece := ['.', '.']

/-- The pieces of a location, empty ones included. -/
def pieces : List Char → List Piece
  | [] => [[]]
  | c :: cs =>
    if c = '/' then [] :: pieces cs
    else match pieces cs with
      | [] => [[c]]
      | p :: ps => (c :: p) :: ps

/-- Pieces with slashes between them. -/
def joinPieces : List Piece → List Char
  | [] => []
  | [p] => p
  | p :: ps => p ++ '/' :: joinPieces ps

theorem pieces_ne_nil (cs : List Char) : pieces cs ≠ [] := by
  cases cs with
  | nil => simp [pieces]
  | cons c cs =>
    unfold pieces
    split
    · simp
    · split <;> simp

/-- No slash is inside a piece. -/
theorem slash_notMem_of_mem_pieces {cs : List Char} :
    ∀ p ∈ pieces cs, '/' ∉ p := by
  induction cs with
  | nil => simp [pieces]
  | cons c cs ih =>
    unfold pieces
    split
    · simpa using ih
    · rename_i hc
      cases hp : pieces cs with
      | nil => exact absurd hp (pieces_ne_nil cs)
      | cons p ps =>
        rw [hp] at ih
        intro q hq
        rcases List.mem_cons.1 hq with rfl | hq
        · exact List.not_mem_cons_of_ne_of_not_mem (Ne.symm hc) (ih p List.mem_cons_self)
        · exact ih q (List.mem_cons_of_mem _ hq)

/-- Nothing is lost between the pieces. -/
theorem joinPieces_pieces (cs : List Char) : joinPieces (pieces cs) = cs := by
  induction cs with
  | nil => rfl
  | cons c cs ih =>
    unfold pieces
    have hne := pieces_ne_nil cs
    split
    · rename_i hc
      cases hp : pieces cs with
      | nil => exact absurd hp hne
      | cons p ps => rw [hp] at ih; simp [joinPieces, ih, hc]
    · cases hp : pieces cs with
      | nil => exact absurd hp hne
      | cons p ps =>
        rw [hp] at ih
        cases ps with
        | nil => simp [joinPieces] at ih ⊢; exact ih
        | cons q qs => simp [joinPieces] at ih ⊢; exact ih

/-- Adds a piece to those before it, the last one first. Above the root there is only the root. -/
def addPiece (rooted : Bool) (before : List Piece) (p : Piece) : List Piece :=
  if p = [] ∨ p = here then before
  else if p = parent then
    match before with
    | [] => if rooted then [] else [parent]
    | last :: rest => if last = parent then parent :: before else rest
  else p :: before

/-- Whether a location starts at the root. -/
def isRooted (path : List Char) : Bool := path.head? == some '/'

/-- The pieces of the clean form of a location. -/
def cleanPieces (path : List Char) : List Piece :=
  ((pieces path).foldl (addPiece (isRooted path)) []).reverse

def cleanChars (path : List Char) : List Char :=
  let body := joinPieces (cleanPieces path)
  if isRooted path then '/' :: body
  else if body = [] then here
  else body

/-- The clean form of a location. -/
def clean (path : String) : String := String.ofList (cleanChars path.toList)

/-- The location of something inside a directory. Without a directory it is where we are. -/
def join (dir name : String) : String :=
  if dir ≠ "" then clean (dir ++ "/" ++ name)
  else if name ≠ "" then clean name
  else ""

/-- The last piece of a location, slashes at its end not counted. -/
def base (path : String) : String :=
  match (pieces path.toList).reverse.find? (· ≠ []) with
  | some p => String.ofList p
  | none => if path = "" then "." else "/"

/-- The last piece without the last dot and what follows it. -/
def stem (path : String) : String :=
  let name := (base path).toList
  if '.' ∈ name then String.ofList ((name.reverse.dropWhile (· ≠ '.')).drop 1).reverse
  else String.ofList name

/-- A location and the directories above it, innermost first. -/
def lineage (path : String) : List String :=
  let ps := pieces path.toList
  let places := (List.range ps.length).map fun i => String.ofList (joinPieces (ps.take (i + 1)))
  (places.filter (· ≠ "")).reverse

end WhileAsm.Build.Location
