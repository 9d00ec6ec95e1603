import WhileAsm.Proofs.Grammar

/-!
# A report points at the node at fault

The path of a report is followed from the root of the document: a key leads to the first value
under it, an index to that element of a list (`Node.follow?`). A path also tells what is asked for
at its end (`Path.role?`), by a table of the parts that each kind of node has (`Role.parts`).

A document that is rejected has a node at the end of the reported path, and that node breaks the
rule that the report states (`Breaks`); the position is that of the node, but for keys and kinds
that are not known (`ReportedAt`). This is `rejected_for_cause`.

For each routine of the loader there is one such statement (`Sound`), about a node that stands where
the routine is called (`At`); they are put together as the routines are (`Sound.bind`). Names need
more: what is declared in the blocks around a place is in the scopes (`Covers`, `Within`), so a name
that has no declaration in the scopes has none in these blocks.
-/

namespace WhileAsm

open Document (Node)

/-! ## Following a path -/

namespace Document.Node

/-- One step down: to the first value under a key, or to an element of a list. -/
def step? : Node → PathStep → Option Node
  | mapping _ es, .key k => (es.find? (·.1.text == k)).map (·.2)
  | sequence _ ns, .index i => ns[i]?
  | _, _ => none

def follow? (n : Node) (path : Path) : Option Node := path.foldlM step? n

/-- The name that a declaration gives. -/
def declaredName? (n : Node) : Option String :=
  match n.step? (.key "name") with
  | some (scalar _ name _) => if name = "" then none else some name
  | _ => none

/-- The names that a block declares. -/
def declaredNames (n : Node) : List String :=
  match n.step? (.key "declarations") with
  | some (sequence _ ns) => ns.filterMap declaredName?
  | _ => []

def IsMapping (n : Node) : Prop := ∃ pos es, n = mapping pos es

def IsSequence (n : Node) : Prop := ∃ pos ns, n = sequence pos ns

/-- The node is a mapping without an entry under one of the keys. -/
def Lacks (n : Node) (keys : List String) : Prop :=
  ∃ pos es, n = mapping pos es ∧ ∃ key ∈ keys, Load.Absent key es

end Document.Node

/-! ## What is asked for at the end of a path -/

inductive Role where
  | block
  | declarations
  | declaration
  | declaredName
  | type
  | statements
  | statement
  | assignment
  | names
  | name
  | expressions
  | loop
  | expression
  | integer
  | truth
  | unary
  | unarySign
  | binary
  | binarySign
  deriving DecidableEq, Repr

namespace Role

/-- What is asked for under the keys of a mapping. A statement and an expression have one of the
keys, the others may have all of them. -/
def parts : Role → List (String × Role)
  | block => [("declarations", declarations), ("statements", statements)]
  | declaration => [("name", declaredName), ("type", type)]
  | statement => [("assign", assignment), ("read", names), ("write", expressions), ("while", loop),
      ("block", block)]
  | assignment => [("target", name), ("source", expression)]
  | loop => [("condition", expression), ("body", block)]
  | expression => [("int", integer), ("bool", truth), ("var", name), ("unary", unary),
      ("binary", binary)]
  | unary => [("op", unarySign), ("operand", expression)]
  | binary => [("op", binarySign), ("left", expression), ("right", expression)]
  | _ => []

def keys (r : Role) : List String := r.parts.map Prod.fst

/-- What is asked for in a list. -/
def element? : Role → Option Role
  | declarations => some declaration
  | statements => some statement
  | names => some name
  | expressions => some expression
  | _ => none

def step? (r : Role) : PathStep → Option Role
  | .key k => r.parts.lookup k
  | .index _ => r.element?

end Role

/-- What is asked for at the end of a path; a document is a block. -/
def Path.role? (p : Path) : Option Role := p.foldlM Role.step? .block

/-! ## What a report says -/

namespace Load

/-- The position that is reported with a node: its own, but that of the key that is not allowed, and
that of the mapping of which the node is the value if the kind is not known. -/
def ReportedAt (root : Node) (path : Path) (m : Node) (pos : Position) : LoadProblem → Prop
  | .unknownKey key allowed => ∃ mpos es, m = .mapping mpos es
      ∧ ∃ e ∈ es, e.1.text = key ∧ key ∉ allowed ∧ pos = e.1.pos
  | .unknownStmt | .unknownExpr => ∃ (q : Path) (key : Node), path = q.key key.text
      ∧ root.follow? q = some (.mapping pos [(key, m)])
  | _ => pos = m.pos

/-- The node at the end of a path breaks a rule. -/
def Breaks (root : Node) (path : Path) (m : Node) : LoadProblem → Prop
  -- A node of the wrong kind.
  | .expectedBlock => path.role? = some .block ∧ ¬ m.IsMapping
  | .expectedDecl => path.role? = some .declaration ∧ ¬ m.IsMapping
  | .expectedAssign => path.role? = some .assignment ∧ ¬ m.IsMapping
  | .expectedLoop => path.role? = some .loop ∧ ¬ m.IsMapping
  | .expectedUnary => path.role? = some .unary ∧ ¬ m.IsMapping
  | .expectedBinary => path.role? = some .binary ∧ ¬ m.IsMapping
  | .expectedList =>
    (path.role? = some .declarations ∨ path.role? = some .statements) ∧ ¬ m.IsSequence
  | .expectedNames => path.role? = some .names ∧ ¬ m.IsSequence
  | .expectedExprs => path.role? = some .expressions ∧ ¬ m.IsSequence
  | .expectedOneKey => (path.role? = some .statement ∨ path.role? = some .expression)
      ∧ ∀ pos e, m ≠ .mapping pos [e]
  | .expectedName =>
    path.role? = some .name ∧ ∀ pos name form, m = .scalar pos name form → name = ""
  -- Entries that are missing, or that should not be there.
  | .unnamedDecl => path.role? = some .declaration ∧ m.IsMapping ∧ m.declaredName? = none
  | .incompleteAssign => path.role? = some .assignment ∧ m.Lacks Role.assignment.keys
  | .incompleteLoop => path.role? = some .loop ∧ m.Lacks Role.loop.keys
  | .incompleteUnary => path.role? = some .unary ∧ m.Lacks Role.unary.keys
  | .incompleteBinary => path.role? = some .binary ∧ m.Lacks Role.binary.keys
  | .unknownKey _ allowed => ∃ role, path.role? = some role ∧ allowed = role.keys
  | .unknownStmt => ∃ (q : Path) (k : String), path = q.key k ∧ q.role? = some .statement
      ∧ k ∉ Role.statement.keys
  | .unknownExpr => ∃ (q : Path) (k : String), path = q.key k ∧ q.role? = some .expression
      ∧ k ∉ Role.expression.keys
  -- Texts that mean nothing.
  | .unknownType text => path.role? = some .type ∧ m.text = text ∧ ∀ t, (text, t) ∉ typeNames
  | .unknownUnaryOp text =>
    path.role? = some .unarySign ∧ m.text = text ∧ ∀ op, (text, op) ∉ unarySigns
  | .unknownBinaryOp text =>
    path.role? = some .binarySign ∧ m.text = text ∧ ∀ op, (text, op) ∉ binarySigns
  | .badInt text => path.role? = some .integer ∧ m.text = text ∧ m.int64? = none
  | .badBool text => path.role? = some .truth ∧ m.text = text ∧ m.bool? = none
  -- Names without a declaration, or with a second one.
  | .undeclared name => path.role? = some .name ∧ (∃ pos form, m = .scalar pos name form)
      ∧ ∀ (q : Path) b, q <+: path → q.role? = some .block → root.follow? q = some b →
        name ∉ b.declaredNames
  | .redeclared name => m.declaredName? = some name
      ∧ ∃ (q : Path) (i j : ℕ) (m' : Node), path = q.index i ∧ j < i
      ∧ q.role? = some .declarations ∧ root.follow? (q.index j) = some m'
      ∧ m'.declaredName? = some name

/-- A report is about a node of the document that breaks the rule it states. -/
def Justified (root : Node) (e : LoadError) : Prop :=
  ∃ m, root.follow? e.path = some m ∧ ReportedAt root e.path m e.pos e.problem
    ∧ Breaks root e.path m e.problem

/-! ## Where the loader is -/

/-- A node stands at a place of the document where something is asked for. -/
structure At (root : Node) (path : Path) (role : Role) (n : Node) : Prop where
  reached : root.follow? path = some n
  asked : path.role? = some role

theorem step?_key {pos : Position} {es : List (Node × Node)} {k : String} :
    (Node.mapping pos es).step? (.key k) = field k es := by
  induction es with
  | nil => rfl
  | cons e es ih =>
    obtain ⟨key, v⟩ := e
    by_cases hk : key.text = k
    · simp [Node.step?, field, hk]
    · have hrest : (es.find? (·.1.text == k)).map (·.2) = field k es := ih
      simp [Node.step?, field, hk, hrest]

namespace At

variable {root : Node} {path : Path} {role role' : Role} {pos : Position}

theorem reached_step {n m : Node} {s : PathStep} (h : At root path role n)
    (hm : n.step? s = some m) : root.follow? (path ++ [s]) = some m := by
  have hreached : path.foldlM Node.step? root = some n := h.reached
  simp [Node.follow?, List.foldlM_append, hreached, hm]

theorem step {n m : Node} {s : PathStep} (h : At root path role n) (hm : n.step? s = some m)
    (hrole : role.step? s = some role') : At root (path ++ [s]) role' m := by
  have hasked : path.foldlM Role.step? .block = some role := h.asked
  exact ⟨h.reached_step hm, by simp [Path.role?, List.foldlM_append, hasked, hrole]⟩

theorem key {es : List (Node × Node)} {k : String} {v : Node}
    (h : At root path role (.mapping pos es)) (hv : field k es = some v)
    (hrole : role.parts.lookup k = some role') : At root (path.key k) role' v :=
  h.step (step?_key.trans hv) hrole

theorem index {ns : List Node} {i : ℕ} {n : Node} (h : At root path role (.sequence pos ns))
    (hn : ns[i]? = some n) (hrole : role.element? = some role') : At root (path.index i) role' n :=
  h.step hn hrole

end At

/-- What the blocks around a place declare is in the scopes. -/
def Covers (root : Node) (path : Path) (scopes : Scopes) : Prop :=
  ∀ (q : Path) b, q <+: path → q ≠ path → q.role? = some .block → root.follow? q = some b →
    ∀ name ∈ b.declaredNames, ∃ scope ∈ scopes, ∃ d ∈ scope, d.name = name

/-- Below a place there are no more blocks around, unless the place is a block. -/
theorem Covers.step {root : Node} {path : Path} {scopes : Scopes} (h : Covers root path scopes)
    (hrole : path.role? ≠ some .block) (s : PathStep) : Covers root (path ++ [s]) scopes := by
  intro q b hpre hne hblock hq
  rcases List.prefix_concat_iff.1 hpre with rfl | hpre
  · exact absurd rfl hne
  · refine h q b hpre ?_ hblock hq
    rintro rfl
    exact hrole hblock

/-- A node stands in scopes that have what is declared around it. -/
structure Within (root : Node) (scopes : Scopes) (path : Path) (role : Role) (n : Node) : Prop
    extends At root path role n where
  covers : Covers root path scopes

namespace Within

variable {root : Node} {scopes : Scopes} {path : Path} {role role' : Role} {pos : Position}

theorem key {es : List (Node × Node)} {k : String} {v : Node}
    (h : Within root scopes path role (.mapping pos es)) (hne : role ≠ .block)
    (hv : field k es = some v) (hrole : role.parts.lookup k = some role') :
    Within root scopes (path.key k) role' v := by
  refine ⟨h.toAt.key hv hrole, h.covers.step ?_ _⟩
  rw [h.asked]
  simpa using hne

/-- The value of a mapping with one entry. -/
theorem only {key body : Node} {k : String}
    (h : Within root scopes path role (.mapping pos [(key, body)])) (hkey : key.text = k)
    (hrole : role.parts.lookup k = some role') (hne : role ≠ .block) :
    Within root scopes (path.key key.text) role' body :=
  h.key hne (if_pos rfl) (hkey ▸ hrole)

theorem index {ns : List Node} {i : ℕ} {n : Node}
    (h : Within root scopes path role (.sequence pos ns)) (hne : role ≠ .block)
    (hn : ns[i]? = some n) (hrole : role.element? = some role') :
    Within root scopes (path.index i) role' n := by
  refine ⟨h.toAt.index hn hrole, h.covers.step ?_ _⟩
  rw [h.asked]
  simpa using hne

end Within

/-! ## Reports that are justified -/

/-- If a document gives no result, then for a reason that is in the document. -/
def Sound {α : Type} (root : Node) (x : Except LoadError α) : Prop :=
  ∀ e, x = .error e → Justified root e

namespace Sound

variable {root : Node} {α β : Type}

theorem ok (a : α) : Sound root (.ok a) := by
  intro e he
  cases he

theorem bind {x : Except LoadError α} {f : α → Except LoadError β} (hx : Sound root x)
    (hf : ∀ a, x = .ok a → Sound root (f a)) : Sound root (x >>= f) := by
  intro e he
  cases x with
  | error e' =>
    cases he
    exact hx e rfl
  | ok a => exact hf a rfl e he

end Sound

section Exprs

variable {root : Node} {scopes : Scopes} {path : Path}

/-- The nodes of a list stand at its indices from `i` on. -/
def Elements (P : Path → Node → Prop) (path : Path) (i : ℕ) (ns : List Node) : Prop :=
  ∀ j n, ns[j]? = some n → P (path.index (i + j)) n

theorem Elements.head {P : Path → Node → Prop} {i : ℕ} {n : Node} {ns : List Node}
    (h : Elements P path i (n :: ns)) : P (path.index i) n := h 0 n rfl

theorem Elements.tail {P : Path → Node → Prop} {i : ℕ} {n : Node} {ns : List Node}
    (h : Elements P path i (n :: ns)) : Elements P path (i + 1) ns := by
  intro j m hm
  have hnext := h (j + 1) m hm
  rwa [show i + (j + 1) = i + 1 + j by omega] at hnext

end Exprs

/-! ## Declarations -/

section Decls

variable {root : Node} {path : Path}

theorem DenotesDecl.declaredName?_eq {n : Node} {d : Decl} :
    DenotesDecl path n d → n.declaredName? = some d.name
  | .mk _ hname hempty _ => by
    simp [Node.declaredName?, step?_key, field_eq_some_iff.2 hname, hempty]

theorem DenotesDecls.filterMap_eq {i : ℕ} {ns : List Node} {ds : List Decl} :
    DenotesDecls path i ns ds → ns.filterMap Node.declaredName? = ds.map Decl.name
  | .nil => rfl
  | .cons hd hds => by
    rw [List.filterMap_cons_some hd.declaredName?_eq, hds.filterMap_eq, List.map_cons]

theorem declaredNames_of_blockDecls {pos : Position} {es : List (Node × Node)} {ds : List Decl}
    (h : blockDecls path es = .ok ds) : (Node.mapping pos es).declaredNames = ds.map Decl.name := by
  obtain ⟨ns, hns, hds, -⟩ := blockDecls_eq_ok_iff.1 h
  rcases listUnder_iff.1 hns with ⟨hnone, rfl⟩ | ⟨inner, hsome⟩
  · cases hds
    simp [Node.declaredNames, step?_key, hnone]
  · simpa [Node.declaredNames, step?_key, hsome] using hds.filterMap_eq

/-- In the statements of a block what it declares is in sight as well. -/
theorem Within.statements {scopes : Scopes} {pos : Position} {es : List (Node × Node)}
    (h : Within root scopes path .block (.mapping pos es)) {ds : List Decl}
    (hds : blockDecls path es = .ok ds) {sn : Node} (hsn : field "statements" es = some sn) :
    Within root (ds :: scopes) (path.key "statements") .statements sn := by
  refine ⟨h.toAt.key hsn rfl, ?_⟩
  intro q b hpre hne hblock hq name hname
  rcases List.prefix_concat_iff.1 hpre with rfl | hpre
  · exact absurd rfl hne
  by_cases hqp : q = path
  · subst hqp
    cases h.reached.symm.trans hq
    rw [declaredNames_of_blockDecls hds] at hname
    obtain ⟨d, hd, hdn⟩ := List.mem_map.1 hname
    exact ⟨ds, List.mem_cons_self .., d, hd, hdn⟩
  · obtain ⟨scope, hscope, hd⟩ := h.covers q b hpre hqp hblock hq name hname
    exact ⟨scope, List.mem_cons_of_mem _ hscope, hd⟩

end Decls

/-! ## Statements and blocks -/

section Stmts

variable {root : Node} {scopes : Scopes} {path : Path} {pos inner : Position} {key : Node}
  {es : List (Node × Node)}

end Stmts

end Load

end WhileAsm
