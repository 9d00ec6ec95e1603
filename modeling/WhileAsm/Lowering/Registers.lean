import WhileAsm.Asm.Line
import WhileAsm.Journal.Event

/-!
# The register file

Registers are handed out from a pool in order of preference and are only given back all at once. A
value that was put into a register is known by a handle, because it may have to make room for
another value and move to a free register. The requests that take registers are steps of a session
(`Lowering.Allocator`).
-/

namespace WhileAsm.Lowering

open Asm (Operand Instr)
open Journal (Event)

/-- A value that was put into a register, wherever it is by now. -/
structure Handle where
  number : Nat
  deriving DecidableEq, Repr, Inhabited

/-- Where a value is while code is generated. -/
inductive Value where
  | imm (value : Int64)
  | cell (name : String)
  | reg (handle : Handle)
  deriving DecidableEq, Repr, Inhabited

structure Registers where
  pool : List String
  /-- The registers in use, each with the value that it holds. -/
  bound : List (String × Handle)
  /-- The register of every value so far, in the order of their handles. Giving registers back does
  not change it. -/
  places : List String
  deriving DecidableEq, Repr, Inhabited

/-- Every register of the pool is in use. `leaving` is the register that was to be vacated. -/
structure Exhausted where
  poolSize : Nat
  leaving : Option String
  deriving DecidableEq, Repr, Inhabited

def Exhausted.message (e : Exhausted) : String :=
  (match e.leaving with
    | some name => "relocate " ++ Asm.registerText name ++ ": "
    | none => "") ++
  "no free register: all " ++ toString e.poolSize ++ " registers are bound"

/-- What a step on the register file comes to. -/
structure Step (α : Type) where
  result : α
  registers : Registers
  instrs : List Instr := []
  events : List Event := []
  deriving Repr, Inhabited

namespace Registers

/-- The register file at the start: nothing is in use. -/
def ofPool (pool : List String) : Registers := ⟨pool, [], []⟩

/-- The value that a register holds. -/
def occupant (r : Registers) (name : String) : Option Handle :=
  (r.bound.find? (·.1 == name)).map (·.2)

/-- How many registers are in use. -/
def inUse (r : Registers) : Nat := r.bound.length

/-- The register of a value. -/
def place (r : Registers) (h : Handle) : String := r.places[h.number]?.getD ""

/-- Where an instruction finds a value. -/
def operand (r : Registers) : Value → Operand
  | .imm v => .imm v
  | .cell name => .mem name
  | .reg h => .reg (r.place h)

/-- Lets a register hold a value, whatever it held before. -/
def hold (r : Registers) (name : String) (h : Handle) : Registers :=
  { r with bound := (name, h) :: r.bound.filter (·.1 != name) }

theorem occupant_hold_self (r : Registers) (name : String) (h : Handle) :
    (r.hold name h).occupant name = some h := by
  simp [occupant, hold]

theorem occupant_hold_of_ne {r : Registers} {name other : String} {h : Handle}
    (hne : other ≠ name) : (r.hold name h).occupant other = r.occupant other := by
  have hfind : ∀ bs : List (String × Handle),
      (bs.filter (·.1 != name)).find? (·.1 == other) = bs.find? (·.1 == other) := by
    intro bs
    rw [List.find?_filter]
    congr 1
    funext b
    by_cases hb : b.1 = other <;> simp [hb, hne]
  simp [occupant, hold, hne.symm, hfind]

/-- Makes a handle for a value in a register, which need not be in use. -/
def adopt (r : Registers) (name : String) : Handle × Registers :=
  (⟨r.places.length⟩, { r with places := r.places ++ [name] })

/-- Puts a new value into a register. -/
def occupy (r : Registers) (name : String) : Handle × Registers :=
  let (h, r) := r.adopt name
  (h, r.hold name h)

/-- Lets another register hold a value. The register it leaves is still in use. -/
def relocate (r : Registers) (h : Handle) (name : String) : Registers :=
  { r with places := r.places.set h.number name }.hold name h

/-- Gives all registers back. -/
def freeAll (r : Registers) : Step Unit where
  result := ()
  registers := { r with bound := [] }
  events := if r.inUse = 0 then [] else [.freed r.inUse]

end Registers

end WhileAsm.Lowering
