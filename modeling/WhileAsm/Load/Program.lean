import WhileAsm.Document.Node.Literal
import WhileAsm.Document.Node.Parse
import WhileAsm.Load.Error

/-!
# From documents to programs

A block is a mapping with the keys `declarations` and `statements`, a statement or an expression a
mapping with one key that names its kind. The first entry with a key counts. A name means the
innermost declaration around it, and the declarations of a block hold for all of its statements.
-/

namespace WhileAsm

open Document (Node)

namespace Load

/-- The declarations in sight: those of each open block, innermost first. -/
abbrev Scopes := List (List Decl)

/-- The innermost declaration of a name. -/
def lookup (scopes : Scopes) (name : String) : Option Decl :=
  scopes.findSome? fun scope => scope.find? (·.name == name)

def fail {α : Type} (n : Node) (path : Path) (p : LoadProblem) : Except LoadError α :=
  .error ⟨path, n.pos, p⟩

/-- The value of the first entry with the given key. -/
def field (key : String) : List (Node × Node) → Option Node
  | [] => none
  | (k, v) :: rest => if k.text = key then some v else field key rest

/-- Refuses the first key that is not allowed. -/
def checkKeys (path : Path) (allowed : List String) : List (Node × Node) → Except LoadError Unit
  | [] => .ok ()
  | (k, _) :: rest =>
    if allowed.contains k.text then checkKeys path allowed rest
    else fail k path (.unknownKey k.text allowed)

/-- A value found under a key is smaller than the entries it was found in. -/
theorem sizeOf_field {key : String} {v : Node} :
    ∀ {es : List (Node × Node)}, field key es = some v → sizeOf v < sizeOf es
  | (k, w) :: rest, h => by
    simp only [field] at h
    simp only [List.cons.sizeOf_spec, Prod.mk.sizeOf_spec]
    split at h
    · cases h; omega
    · have := sizeOf_field h; omega

/-! ## Names and expressions -/

/-- A non-empty scalar that names a declaration in sight. -/
def varRef (scopes : Scopes) (path : Path) (n : Node) : Except LoadError VarRef :=
  match n with
  | .scalar pos name _ =>
    if name = "" then fail n path .expectedName
    else match lookup scopes name with
      | some d => .ok ⟨name, some d, pos⟩
      | none => fail n path (.undeclared name)
  | _ => fail n path .expectedName

def unaryOp? : String → Option UnaryOp
  | "-" => some .neg
  | "not" => some .not
  | _ => none

def binaryOp? : String → Option BinaryOp
  | "+" => some .add
  | "-" => some .sub
  | "*" => some .mul
  | "/" => some .div
  | _ => none

def expr (scopes : Scopes) (path : Path) (n : Node) : Except LoadError Expr :=
  match n with
  | .mapping pos [(key, body)] =>
    let path := path.key key.text
    match key.text with
    | "int" =>
      match body.int64? with
      | some v => .ok (.int pos v)
      | none => fail body path (.badInt body.text)
    | "bool" =>
      match body.bool? with
      | some v => .ok (.bool pos v)
      | none => fail body path (.badBool body.text)
    | "var" => do
      let r ← varRef scopes path body
      return .var r
    | "unary" =>
      match body with
      | .mapping pos es => do
        checkKeys path ["op", "operand"] es
        match field "op" es, _hx : field "operand" es with
        | some on, some xn =>
          match unaryOp? on.text with
          | some op =>
            let x ← expr scopes (path.key "operand") xn
            return .unary pos op x
          | none => fail on (path.key "op") (.unknownUnaryOp on.text)
        | _, _ => fail body path .incompleteUnary
      | _ => fail body path .expectedUnary
    | "binary" =>
      match body with
      | .mapping pos es => do
        checkKeys path ["op", "left", "right"] es
        match field "op" es, _hl : field "left" es, _hr : field "right" es with
        | some on, some ln, some rn =>
          match binaryOp? on.text with
          | some op =>
            let l ← expr scopes (path.key "left") ln
            let r ← expr scopes (path.key "right") rn
            return .binary pos op l r
          | none => fail on (path.key "op") (.unknownBinaryOp on.text)
        | _, _, _ => fail body path .incompleteBinary
      | _ => fail body path .expectedBinary
    | _ => fail n path .unknownExpr
  | _ => fail n path .expectedOneKey
termination_by sizeOf n
decreasing_by
  all_goals simp_wf
  · have := sizeOf_field _hx; omega
  · have := sizeOf_field _hl; omega
  · have := sizeOf_field _hr; omega

/-- Expressions of a list from index `i` on. -/
def exprs (scopes : Scopes) (path : Path) : Nat → List Node → Except LoadError (List Expr)
  | _, [] => .ok []
  | i, n :: ns => do
    let e ← expr scopes (path.index i) n
    return e :: (← exprs scopes path (i + 1) ns)

/-- References of a list from index `i` on. -/
def varRefs (scopes : Scopes) (path : Path) : Nat → List Node → Except LoadError (List VarRef)
  | _, [] => .ok []
  | i, n :: ns => do
    let r ← varRef scopes (path.index i) n
    return r :: (← varRefs scopes path (i + 1) ns)

/-! ## Declarations -/

def varType? : String → Option VarType
  | "int" => some .int
  | "bool" => some .bool
  | _ => none

/-- The declared type; without one a variable is an integer. -/
def declType (path : Path) (es : List (Node × Node)) : Except LoadError VarType :=
  match field "type" es with
  | none => .ok .int
  | some tn =>
    match varType? tn.text with
    | some t => .ok t
    | none => fail tn (path.key "type") (.unknownType tn.text)

/-- A declaration in a block that already has the declarations `scope`. -/
def decl (scope : List Decl) (path : Path) (n : Node) : Except LoadError Decl :=
  match n with
  | .mapping pos es => do
    checkKeys path ["name", "type"] es
    match field "name" es with
    | some (.scalar _ name _) =>
      if name = "" then fail n path .unnamedDecl
      else
        let type ← declType path es
        if scope.any (·.name == name) then fail n path (.redeclared name)
        else return ⟨path, name, type, pos⟩
    | _ => fail n path .unnamedDecl
  | _ => fail n path .expectedDecl

/-- Declarations of a list from index `i` on, after those of `scope`. -/
def decls (path : Path) : Nat → List Decl → List Node → Except LoadError (List Decl)
  | _, scope, [] => .ok scope
  | i, scope, n :: ns => do
    let d ← decl scope (path.index i) n
    decls path (i + 1) (scope ++ [d]) ns

/-- The declarations of a block. -/
def blockDecls (path : Path) (es : List (Node × Node)) : Except LoadError (List Decl) :=
  match field "declarations" es with
  | none => .ok []
  | some (.sequence _ ns) => decls (path.key "declarations") 0 [] ns
  | some n => fail n (path.key "declarations") .expectedList

/-! ## Statements and blocks -/

mutual

def stmt (scopes : Scopes) (path : Path) (n : Node) : Except LoadError Stmt :=
  match n with
  | .mapping pos [(key, body)] =>
    let path := path.key key.text
    match key.text with
    | "assign" =>
      match body with
      | .mapping pos es => do
        checkKeys path ["target", "source"] es
        match field "target" es, field "source" es with
        | some tn, some sn =>
          let target ← varRef scopes (path.key "target") tn
          let source ← expr scopes (path.key "source") sn
          return .assign pos (some target) source
        | _, _ => fail body path .incompleteAssign
      | _ => fail body path .expectedAssign
    | "read" =>
      match body with
      | .sequence _ ns => do
        let vars ← varRefs scopes path 0 ns
        return .read pos (vars.map some)
      | _ => fail body path .expectedNames
    | "write" =>
      match body with
      | .sequence _ ns => do
        let es ← exprs scopes path 0 ns
        return .write pos es
      | _ => fail body path .expectedExprs
    | "while" =>
      match body with
      | .mapping pos es => do
        checkKeys path ["condition", "body"] es
        match field "condition" es, _hb : field "body" es with
        | some cn, some bn =>
          let cond ← expr scopes (path.key "condition") cn
          let b ← block scopes (path.key "body") bn
          return .loop pos cond (some b)
        | _, _ => fail body path .incompleteLoop
      | _ => fail body path .expectedLoop
    | "block" => do
      let b ← block scopes path body
      return .block b
    | _ => fail n path .unknownStmt
  | _ => fail n path .expectedOneKey
termination_by sizeOf n
decreasing_by
  all_goals simp_wf
  · have := sizeOf_field _hb; omega
  · omega

/-- Statements of a list from index `i` on. -/
def stmts (scopes : Scopes) (path : Path) (i : Nat) (ns : List Node) :
    Except LoadError (List Stmt) :=
  match ns with
  | [] => .ok []
  | n :: ns => do
    let s ← stmt scopes (path.index i) n
    return s :: (← stmts scopes path (i + 1) ns)
termination_by sizeOf ns

def block (scopes : Scopes) (path : Path) (n : Node) : Except LoadError Block :=
  match n with
  | .mapping pos es => do
    checkKeys path ["declarations", "statements"] es
    let ds ← blockDecls path es
    match hs : field "statements" es with
    | none => return .mk pos (ds.map .decl)
    | some (.sequence _ ns) =>
      let ss ← stmts (ds :: scopes) (path.key "statements") 0 ns
      return .mk pos (ds.map .decl ++ ss)
    | some sn => fail sn (path.key "statements") .expectedList
  | _ => fail n path .expectedBlock
termination_by sizeOf n
decreasing_by
  all_goals simp_wf
  have := sizeOf_field hs
  simp only [Document.Node.sequence.sizeOf_spec] at this
  omega

end

/-- The program that a document denotes. -/
def program (root : Node) : Except LoadError Program := do
  let b ← block [] [] root
  return ⟨root.pos, some b⟩

end Load

/-- Reads a program document. -/
def load (bytes : ByteArray) : Except LoadFailure Program :=
  match Document.parse bytes with
  | .error f => .error (.malformed f)
  | .ok none => .error .noDocument
  | .ok (some root) => (Load.program root).mapError .rejected

end WhileAsm
