import WhileAsm.Lowering.Session

/-!
# Requests to the register file

The steps of a session that ask for registers. A register is taken by looking through the pool in
order; running out of registers ends the step where it is, and what was done until then remains.
-/

namespace WhileAsm.Lowering.Gen

/-- Takes the first of some registers that holds no value. -/
def takeFree {α : Type} (take : String → Gen α) : List String → Gen α
  | [] => do throw (.exhausted ⟨(← get).registers.pool.length, none⟩)
  | name :: names => do
    match (← get).registers.occupant name with
    | none => take name
    | some _ => takeFree take names

/-- Takes the first free register of the pool. -/
def assignFree {α : Type} (take : String → Gen α) : Gen α := do
  takeFree take (← get).registers.pool

/-- Puts a new value into a register. -/
def occupy (name : String) : Gen Handle := do
  let (h, registers) := (← get).registers.occupy name
  modify fun s => { s with registers }
  report (.bound name)
  return h

/-- Lets another register hold a value. -/
def relocate (h : Handle) (name : String) : Gen String := do
  modify fun s => { s with registers := s.registers.relocate h name }
  report (.bound name)
  return name

/-- A new value in the first free register. -/
def fresh : Gen Handle := assignFree occupy

/-- Says which register was to be vacated when there was no free one. -/
def leaving (name : String) : GenError → GenError
  | .exhausted e => .exhausted { e with leaving := some name }
  | e => e

/-- A new value in the named register. A value that is there moves to a free one first. -/
def bindTo (name : String) : Gen Handle := do
  if let some old := (← get).registers.occupant name then
    let other ← EStateM.adaptExcept (leaving name) (assignFree (relocate old))
    instr (.move (.reg name) (.reg other))
    report (.relocated name other)
  occupy name

/-- A value moved into a fresh register. -/
def load (v : Value) : Gen Handle := do
  let h ← fresh
  instr (.move (← operand v) (← operand (.reg h)))
  return h

/-- A value that is no constant: a constant is moved into a fresh register. -/
def nonImmediate (v : Value) : Gen Value :=
  match v with
  | .imm _ => return .reg (← load v)
  | _ => return v

end WhileAsm.Lowering.Gen
