import Mathlib.Data.List.Forall2
import WhileAsm.Load.Program

/-!
# The language of documents

What a document denotes, said by rules and without an order of checks: a mapping has only keys of
its kind, its first entry with a key counts, and a name means the innermost declaration of that name
(`Means`). `DenotesExpr`, `DenotesStmt` and `DenotesBlock` say which tree a node denotes in the
scopes around it.

A document loads as a program exactly if it denotes it (`load_iff_denotes`). For each routine of the
loader there is one such equivalence; they go by recursion over the document, as the routines do.
-/

namespace WhileAsm.Load

open Document (Node)

/-! ## Entries -/

/-- The value of the first entry with a key. -/
def FirstValue (key : String) (es : List (Node × Node)) (v : Node) : Prop :=
  ∃ front k back, es = front ++ (k, v) :: back ∧ k.text = key ∧ ∀ e ∈ front, e.1.text ≠ key

def Absent (key : String) (es : List (Node × Node)) : Prop := ∀ e ∈ es, e.1.text ≠ key

def KeysIn (allowed : List String) (es : List (Node × Node)) : Prop :=
  ∀ e ∈ es, e.1.text ∈ allowed

/-- The elements of the sequence under a key; there are none without the key. -/
def ListUnder (key : String) (es : List (Node × Node)) (ns : List Node) : Prop :=
  Absent key es ∧ ns = [] ∨ ∃ pos, FirstValue key es (.sequence pos ns)

/-! ## Names -/

/-- A name means a declaration of the innermost scope that has one of that name. -/
def Means (scopes : Scopes) (name : String) (d : Decl) : Prop :=
  ∃ inner scope outer, scopes = inner ++ scope :: outer ∧ (∀ s ∈ inner, ∀ d' ∈ s, d'.name ≠ name)
    ∧ d ∈ scope ∧ d.name = name

/-- A node is the name of a variable. -/
inductive DenotesRef (scopes : Scopes) : Node → VarRef → Prop where
  | mk {pos : Position} {name : String} {form : Document.Form} {d : Decl} :
    name ≠ "" → Means scopes name d →
      DenotesRef scopes (.scalar pos name form) ⟨name, some d, pos⟩

/-! ## Expressions -/

def unarySigns : List (String × UnaryOp) := [("-", .neg), ("not", .not)]

def binarySigns : List (String × BinaryOp) := [("+", .add), ("-", .sub), ("*", .mul), ("/", .div)]

/-- A node is an expression: a mapping with one entry, whose key is the kind of the expression. -/
inductive DenotesExpr (scopes : Scopes) : Node → Expr → Prop where
  | int {pos : Position} {key body : Node} {v : Int64} :
    key.text = "int" → body.int64? = some v →
      DenotesExpr scopes (.mapping pos [(key, body)]) (.int pos v)
  | bool {pos : Position} {key body : Node} {b : Bool} :
    key.text = "bool" → body.bool? = some b →
      DenotesExpr scopes (.mapping pos [(key, body)]) (.bool pos b)
  | var {pos : Position} {key body : Node} {ref : VarRef} :
    key.text = "var" → DenotesRef scopes body ref →
      DenotesExpr scopes (.mapping pos [(key, body)]) (.var ref)
  | unary {pos inner : Position} {key on xn : Node} {es : List (Node × Node)} {op : UnaryOp}
      {x : Expr} :
    key.text = "unary" → KeysIn ["op", "operand"] es → FirstValue "op" es on →
      FirstValue "operand" es xn → (on.text, op) ∈ unarySigns → DenotesExpr scopes xn x →
      DenotesExpr scopes (.mapping pos [(key, .mapping inner es)]) (.unary inner op x)
  | binary {pos inner : Position} {key on ln rn : Node} {es : List (Node × Node)} {op : BinaryOp}
      {l r : Expr} :
    key.text = "binary" → KeysIn ["op", "left", "right"] es → FirstValue "op" es on →
      FirstValue "left" es ln → FirstValue "right" es rn → (on.text, op) ∈ binarySigns →
      DenotesExpr scopes ln l → DenotesExpr scopes rn r →
      DenotesExpr scopes (.mapping pos [(key, .mapping inner es)]) (.binary inner op l r)

/-! ## Declarations -/

def typeNames : List (String × VarType) := [("int", .int), ("bool", .bool)]

/-- The type of a declaration is an integer unless an entry says otherwise. -/
def DenotesType (es : List (Node × Node)) (type : VarType) : Prop :=
  Absent "type" es ∧ type = .int ∨ ∃ tn, FirstValue "type" es tn ∧ (tn.text, type) ∈ typeNames

/-- A node at a place is a declaration. -/
inductive DenotesDecl (place : Path) : Node → Decl → Prop where
  | mk {pos inner : Position} {es : List (Node × Node)} {name : String} {form : Document.Form}
      {type : VarType} :
    KeysIn ["name", "type"] es → FirstValue "name" es (.scalar inner name form) → name ≠ "" →
      DenotesType es type → DenotesDecl place (.mapping pos es) ⟨place, name, type, pos⟩

/-- The nodes of a list at a place, from index `i` on, are declarations. -/
inductive DenotesDecls (path : Path) : ℕ → List Node → List Decl → Prop where
  | nil {i : ℕ} : DenotesDecls path i [] []
  | cons {i : ℕ} {n : Node} {ns : List Node} {d : Decl} {ds : List Decl} :
    DenotesDecl (path.index i) n d → DenotesDecls path (i + 1) ns ds →
      DenotesDecls path i (n :: ns) (d :: ds)

/-! ## Statements and blocks -/

mutual

/-- A node at a place is a statement: a mapping with one entry, whose key is the kind of the
statement. -/
inductive DenotesStmt : Scopes → Path → Node → Stmt → Prop where
  | assign {scopes : Scopes} {path : Path} {pos inner : Position} {key tn sn : Node}
      {es : List (Node × Node)} {target : VarRef} {source : Expr} :
    key.text = "assign" → KeysIn ["target", "source"] es → FirstValue "target" es tn →
      FirstValue "source" es sn → DenotesRef scopes tn target → DenotesExpr scopes sn source →
      DenotesStmt scopes path (.mapping pos [(key, .mapping inner es)])
        (.assign inner (some target) source)
  | read {scopes : Scopes} {path : Path} {pos inner : Position} {key : Node} {ns : List Node}
      {refs : List VarRef} :
    key.text = "read" → List.Forall₂ (DenotesRef scopes) ns refs →
      DenotesStmt scopes path (.mapping pos [(key, .sequence inner ns)])
        (.read pos (refs.map some))
  | write {scopes : Scopes} {path : Path} {pos inner : Position} {key : Node} {ns : List Node}
      {es : List Expr} :
    key.text = "write" → List.Forall₂ (DenotesExpr scopes) ns es →
      DenotesStmt scopes path (.mapping pos [(key, .sequence inner ns)]) (.write pos es)
  | loop {scopes : Scopes} {path : Path} {pos inner : Position} {key cn bn : Node}
      {es : List (Node × Node)} {cond : Expr} {body : Block} :
    key.text = "while" → KeysIn ["condition", "body"] es → FirstValue "condition" es cn →
      FirstValue "body" es bn → DenotesExpr scopes cn cond →
      DenotesBlock scopes ((path.key "while").key "body") bn body →
      DenotesStmt scopes path (.mapping pos [(key, .mapping inner es)])
        (.loop inner cond (some body))
  | block {scopes : Scopes} {path : Path} {pos : Position} {key body : Node} {b : Block} :
    key.text = "block" → DenotesBlock scopes (path.key "block") body b →
      DenotesStmt scopes path (.mapping pos [(key, body)]) (.block b)

/-- The nodes of a list at a place, from index `i` on, are statements. -/
inductive DenotesStmts : Scopes → Path → ℕ → List Node → List Stmt → Prop where
  | nil {scopes : Scopes} {path : Path} {i : ℕ} : DenotesStmts scopes path i [] []
  | cons {scopes : Scopes} {path : Path} {i : ℕ} {n : Node} {ns : List Node} {s : Stmt}
      {ss : List Stmt} :
    DenotesStmt scopes (path.index i) n s → DenotesStmts scopes path (i + 1) ns ss →
      DenotesStmts scopes path i (n :: ns) (s :: ss)

/-- A node at a place is a block. Its declarations have different names, stand before its statements
and are in sight in all of them. -/
inductive DenotesBlock : Scopes → Path → Node → Block → Prop where
  | mk {scopes : Scopes} {path : Path} {pos : Position} {es : List (Node × Node)}
      {dns sns : List Node} {ds : List Decl} {ss : List Stmt} :
    KeysIn ["declarations", "statements"] es → ListUnder "declarations" es dns →
      DenotesDecls (path.key "declarations") 0 dns ds → (ds.map Decl.name).Nodup →
      ListUnder "statements" es sns → DenotesStmts (ds :: scopes) (path.key "statements") 0 sns ss →
      DenotesBlock scopes path (.mapping pos es) (.mk pos (ds.map .decl ++ ss))

end

/-- A document is a program: a block with nothing around it. -/
def Denotes (root : Node) (p : Program) : Prop :=
  ∃ b, DenotesBlock [] [] root b ∧ p = ⟨root.pos, some b⟩

/-! ## Entries and names are found as the rules say -/

theorem bind_eq_ok {α β : Type} {x : Except LoadError α} {f : α → Except LoadError β} {b : β} :
    x >>= f = .ok b ↔ ∃ a, x = .ok a ∧ f a = .ok b := by
  cases x with
  | error e => simp [bind, Except.bind]
  | ok a => simp [bind, Except.bind]

theorem field_eq_none_iff {key : String} {es : List (Node × Node)} :
    field key es = none ↔ Absent key es := by
  induction es with
  | nil => simp [field, Absent]
  | cons e es ih =>
    obtain ⟨k, v⟩ := e
    by_cases hk : k.text = key
    · simp [field, Absent, hk]
    · simpa [field, Absent, hk] using ih

theorem field_eq_some_iff {key : String} {es : List (Node × Node)} {v : Node} :
    field key es = some v ↔ FirstValue key es v := by
  constructor
  · induction es with
    | nil =>
      intro h
      cases h
    | cons e es ih =>
      obtain ⟨k, w⟩ := e
      intro h
      simp only [field] at h
      split_ifs at h with hk
      · cases h
        exact ⟨[], k, es, rfl, hk, by simp⟩
      · obtain ⟨front, k', back, rfl, hk', hfront⟩ := ih h
        refine ⟨(k, w) :: front, k', back, rfl, hk', ?_⟩
        intro e he
        rcases List.mem_cons.1 he with rfl | he
        · exact hk
        · exact hfront e he
  · rintro ⟨front, k, back, rfl, hk, hfront⟩
    induction front with
    | nil => simp [field, hk]
    | cons e front ih =>
      obtain ⟨k', w⟩ := e
      have hk' : k'.text ≠ key := hfront (k', w) (List.mem_cons_self ..)
      simp only [List.cons_append, field, if_neg hk']
      exact ih fun e he => hfront e (List.mem_cons_of_mem _ he)

theorem checkKeys_eq_ok_iff {path : Path} {allowed : List String} {es : List (Node × Node)}
    {u : Unit} : checkKeys path allowed es = .ok u ↔ KeysIn allowed es := by
  induction es with
  | nil => simp [checkKeys, KeysIn]
  | cons e es ih =>
    obtain ⟨k, v⟩ := e
    by_cases hk : k.text ∈ allowed
    · simpa [checkKeys, KeysIn, hk] using ih
    · simp [checkKeys, KeysIn, hk, fail]

/-- The declarations of each scope have different names. -/
def Distinct (scopes : Scopes) : Prop := ∀ s ∈ scopes, (s.map Decl.name).Nodup

theorem find?_name_eq_some_iff {scope : List Decl} (h : (scope.map Decl.name).Nodup)
    {name : String} {d : Decl} :
    scope.find? (·.name == name) = some d ↔ d ∈ scope ∧ d.name = name := by
  induction scope with
  | nil => simp
  | cons e scope ih =>
    obtain ⟨hnot, hrest⟩ := List.nodup_cons.1 h
    by_cases he : e.name = name
    · have hother : d ∈ scope → d.name ≠ name := fun hd hn =>
        hnot (he.trans hn.symm ▸ List.mem_map_of_mem hd)
      constructor
      · intro hf
        simp only [List.find?_cons, he, beq_self_eq_true, Option.some.injEq] at hf
        exact ⟨hf ▸ List.mem_cons_self .., hf ▸ he⟩
      · rintro ⟨hd, hn⟩
        rcases List.mem_cons.1 hd with rfl | hd
        · simp [hn]
        · exact absurd hn (hother hd)
    · rw [List.find?_cons_of_neg (by simpa using he), ih hrest, List.mem_cons]
      refine ⟨fun hd => ⟨Or.inr hd.1, hd.2⟩, ?_⟩
      rintro ⟨rfl | hd, hn⟩
      · exact absurd hn he
      · exact ⟨hd, hn⟩

theorem means_nil {name : String} {d : Decl} : ¬ Means [] name d := by
  rintro ⟨inner, scope, outer, h, -⟩
  simp at h

/-- A name is looked for in the innermost scope, and then in those around it. -/
theorem means_cons {scope : List Decl} {scopes : Scopes} {name : String} {d : Decl} :
    Means (scope :: scopes) name d ↔ (d ∈ scope ∧ d.name = name)
      ∨ (∀ d' ∈ scope, d'.name ≠ name) ∧ Means scopes name d := by
  constructor
  · rintro ⟨inner, scope', outer, h, hinner, hd⟩
    cases inner with
    | nil =>
      simp only [List.nil_append, List.cons.injEq] at h
      obtain ⟨rfl, -⟩ := h
      exact Or.inl hd
    | cons first inner =>
      simp only [List.cons_append, List.cons.injEq] at h
      obtain ⟨rfl, rfl⟩ := h
      refine Or.inr ⟨hinner _ (List.mem_cons_self ..), inner, scope', outer, rfl, ?_, hd⟩
      exact fun s hs => hinner s (List.mem_cons_of_mem _ hs)
  · rintro (hd | ⟨hscope, inner, scope', outer, rfl, hinner, hd⟩)
    · exact ⟨[], scope, scopes, rfl, by simp, hd⟩
    · refine ⟨scope :: inner, scope', outer, rfl, ?_, hd⟩
      intro s hs
      rcases List.mem_cons.1 hs with rfl | hs
      · exact hscope
      · exact hinner s hs

theorem lookup_eq_some_iff {name : String} {d : Decl} : ∀ {scopes : Scopes}, Distinct scopes →
    (lookup scopes name = some d ↔ Means scopes name d)
  | [], _ => by simp [lookup, means_nil]
  | scope :: scopes, h => by
    have hscope := h scope (List.mem_cons_self ..)
    have ih : lookup scopes name = some d ↔ Means scopes name d :=
      lookup_eq_some_iff fun s hs => h s (List.mem_cons_of_mem _ hs)
    rw [means_cons, ← ih, ← find?_name_eq_some_iff hscope]
    unfold lookup
    rw [List.findSome?_cons]
    cases hfind : scope.find? (·.name == name) with
    | some e =>
      have he : ¬ ∀ d' ∈ scope, d'.name ≠ name := by
        intro hall
        obtain ⟨hmem, hn⟩ := (find?_name_eq_some_iff hscope).1 hfind
        exact hall e hmem hn
      simp [he]
    | none =>
      have hall : ∀ d' ∈ scope, d'.name ≠ name := by
        simpa using hfind
      simp only [reduceCtorEq, false_or]
      exact ⟨fun hs => ⟨hall, hs⟩, fun hs => hs.2⟩

theorem varRef_eq_ok_iff {scopes : Scopes} (h : Distinct scopes) {path : Path} {n : Node}
    {ref : VarRef} : varRef scopes path n = .ok ref ↔ DenotesRef scopes n ref := by
  constructor
  · intro hr
    unfold varRef at hr
    split at hr
    · split_ifs at hr with hname
      · cases hr
      · split at hr
        · rename_i d hd
          cases hr
          exact ⟨hname, (lookup_eq_some_iff h).1 hd⟩
        · cases hr
    · cases hr
  · rintro ⟨hname, hd⟩
    simp [varRef, hname, (lookup_eq_some_iff h).2 hd]

theorem unaryOp?_eq_some_iff {text : String} {op : UnaryOp} :
    unaryOp? text = some op ↔ (text, op) ∈ unarySigns := by
  unfold unaryOp?
  split <;> simp_all [unarySigns, eq_comm]

theorem binaryOp?_eq_some_iff {text : String} {op : BinaryOp} :
    binaryOp? text = some op ↔ (text, op) ∈ binarySigns := by
  unfold binaryOp?
  split <;> simp_all [binarySigns, eq_comm]

theorem varType?_eq_some_iff {text : String} {type : VarType} :
    varType? text = some type ↔ (text, type) ∈ typeNames := by
  unfold varType?
  split <;> simp_all [typeNames, eq_comm]

/-! ## Expressions -/

section Exprs

variable {scopes : Scopes} (hs : Distinct scopes)
include hs

theorem denotesExpr_of_expr {path : Path} {n : Node} {e : Expr}
    (h : expr scopes path n = .ok e) : DenotesExpr scopes n e := by
  fun_induction expr scopes path n generalizing e with
  | case1 path pos key body hkey v hv =>
    cases h
    exact .int hkey hv
  | case3 path pos key body hkey v hv =>
    cases h
    exact .bool hkey hv
  | case5 path pos key body =>
    rename_i hkey
    obtain ⟨ref, href, h⟩ := bind_eq_ok.1 h
    cases h
    exact .var hkey ((varRef_eq_ok_iff hs).1 href)
  | case6 path pos key _ hkey inner es =>
    rename_i ih
    obtain ⟨_, hkeys, h⟩ := bind_eq_ok.1 h
    split at h
    · rename_i on xn hop hx
      split at h
      · rename_i op hsign
        obtain ⟨x, hexpr, h⟩ := bind_eq_ok.1 h
        cases h
        exact .unary hkey (checkKeys_eq_ok_iff.1 hkeys) (field_eq_some_iff.1 hop)
          (field_eq_some_iff.1 hx) (unaryOp?_eq_some_iff.1 hsign) (ih xn hx hexpr)
      · cases h
    · cases h
  | case8 path pos key _ hkey inner es ihl =>
    rename_i ihr
    obtain ⟨_, hkeys, h⟩ := bind_eq_ok.1 h
    split at h
    · rename_i on ln rn hop hl hr
      split at h
      · rename_i op hsign
        obtain ⟨l, hleft, h⟩ := bind_eq_ok.1 h
        obtain ⟨r, hright, h⟩ := bind_eq_ok.1 h
        cases h
        exact .binary hkey (checkKeys_eq_ok_iff.1 hkeys) (field_eq_some_iff.1 hop)
          (field_eq_some_iff.1 hl) (field_eq_some_iff.1 hr) (binaryOp?_eq_some_iff.1 hsign)
          (ihl ln hl hleft) (ihr rn hr hright)
      · cases h
    · cases h
  | case2 | case4 | case7 | case9 | case10 | case11 => cases h

theorem expr_of_denotesExpr {n : Node} {e : Expr} (h : DenotesExpr scopes n e) :
    ∀ path : Path, expr scopes path n = .ok e := by
  induction h with
  | int hkey hv =>
    intro path
    rw [expr.eq_def]
    simp only [hkey, hv]
  | bool hkey hv =>
    intro path
    rw [expr.eq_def]
    simp only [hkey, hv]
  | var hkey href =>
    intro path
    rw [expr.eq_def]
    simp only [hkey]
    exact bind_eq_ok.2 ⟨_, (varRef_eq_ok_iff hs).2 href, rfl⟩
  | unary hkey hkeys hop hx hsign _ ih =>
    intro path
    rw [expr.eq_def]
    simp only [hkey]
    refine bind_eq_ok.2 ⟨(), checkKeys_eq_ok_iff.2 hkeys, ?_⟩
    split
    · rename_i on xn hop' hx'
      cases hop'.symm.trans (field_eq_some_iff.2 hop)
      cases hx'.symm.trans (field_eq_some_iff.2 hx)
      simp only [unaryOp?_eq_some_iff.2 hsign]
      exact bind_eq_ok.2 ⟨_, ih _, rfl⟩
    · rename_i hno
      exact absurd (field_eq_some_iff.2 hx) (hno _ _ (field_eq_some_iff.2 hop))
  | binary hkey hkeys hop hl hr hsign _ _ ihl ihr =>
    intro path
    rw [expr.eq_def]
    simp only [hkey]
    refine bind_eq_ok.2 ⟨(), checkKeys_eq_ok_iff.2 hkeys, ?_⟩
    split
    · rename_i on ln rn hop' hl' hr'
      cases hop'.symm.trans (field_eq_some_iff.2 hop)
      cases hl'.symm.trans (field_eq_some_iff.2 hl)
      cases hr'.symm.trans (field_eq_some_iff.2 hr)
      simp only [binaryOp?_eq_some_iff.2 hsign]
      exact bind_eq_ok.2 ⟨_, ihl _, bind_eq_ok.2 ⟨_, ihr _, rfl⟩⟩
    · rename_i hno
      exact absurd (field_eq_some_iff.2 hr)
        (hno _ _ _ (field_eq_some_iff.2 hop) (field_eq_some_iff.2 hl))

theorem expr_eq_ok_iff {path : Path} {n : Node} {e : Expr} :
    expr scopes path n = .ok e ↔ DenotesExpr scopes n e :=
  ⟨denotesExpr_of_expr hs, fun h => expr_of_denotesExpr hs h path⟩

omit hs in
theorem list_eq_ok_iff {α : Type} {R : Node → α → Prop} {path : Path}
    (one : Path → Node → Except LoadError α) (list : ℕ → List Node → Except LoadError (List α))
    (hnil : ∀ i, list i [] = .ok [])
    (hcons : ∀ i n ns, list i (n :: ns) = do
      let x ← one (path.index i) n
      return x :: (← list (i + 1) ns))
    (hone : ∀ path n x, one path n = .ok x ↔ R n x) :
    ∀ {i : ℕ} {ns : List Node} {xs : List α}, list i ns = .ok xs ↔ List.Forall₂ R ns xs
  | i, [], xs => by
    simp [hnil, eq_comm]
  | i, n :: ns, xs => by
    rw [hcons, bind_eq_ok, List.forall₂_cons_left_iff]
    constructor
    · rintro ⟨x, hx, h⟩
      obtain ⟨xs', hxs, h⟩ := bind_eq_ok.1 h
      cases h
      exact ⟨x, xs', (hone _ n x).1 hx, (list_eq_ok_iff one list hnil hcons hone).1 hxs, rfl⟩
    · rintro ⟨x, xs', hx, hxs, rfl⟩
      exact ⟨x, (hone _ n x).2 hx,
        bind_eq_ok.2 ⟨xs', (list_eq_ok_iff one list hnil hcons hone).2 hxs, rfl⟩⟩

theorem exprs_eq_ok_iff {path : Path} {i : ℕ} {ns : List Node} {es : List Expr} :
    exprs scopes path i ns = .ok es ↔ List.Forall₂ (DenotesExpr scopes) ns es :=
  list_eq_ok_iff (expr scopes) (exprs scopes path) (fun _ => rfl) (fun _ _ _ => rfl)
    fun _ _ _ => expr_eq_ok_iff hs

theorem varRefs_eq_ok_iff {path : Path} {i : ℕ} {ns : List Node} {refs : List VarRef} :
    varRefs scopes path i ns = .ok refs ↔ List.Forall₂ (DenotesRef scopes) ns refs :=
  list_eq_ok_iff (varRef scopes) (varRefs scopes path) (fun _ => rfl) (fun _ _ _ => rfl)
    fun _ _ _ => varRef_eq_ok_iff hs

end Exprs

/-! ## Declarations -/

theorem declType_eq_ok_iff {path : Path} {es : List (Node × Node)} {type : VarType} :
    declType path es = .ok type ↔ DenotesType es type := by
  unfold declType DenotesType
  cases htn : field "type" es with
  | none =>
    have habsent := field_eq_none_iff.1 htn
    have hnot : ∀ tn, ¬ FirstValue "type" es tn := fun tn hv => by
      rw [← field_eq_some_iff, htn] at hv
      cases hv
    simp [habsent, hnot, eq_comm]
  | some tn =>
    have hnot : ¬ Absent "type" es := by
      rw [← field_eq_none_iff, htn]
      simp
    have hfirst : ∀ tn', FirstValue "type" es tn' ↔ tn' = tn := fun tn' => by
      rw [← field_eq_some_iff, htn, Option.some.injEq, eq_comm]
    simp only [hnot, false_and, false_or, hfirst, exists_eq_left, ← varType?_eq_some_iff]
    cases varType? tn.text with
    | none => simp [fail]
    | some t => simp

theorem decl_eq_ok_iff {scope : List Decl} {path : Path} {n : Node} {d : Decl} :
    decl scope path n = .ok d ↔ DenotesDecl path n d ∧ d.name ∉ scope.map Decl.name := by
  constructor
  · intro h
    unfold decl at h
    split at h
    · rename_i pos es
      obtain ⟨_, hkeys, h⟩ := bind_eq_ok.1 h
      split at h
      · rename_i inner name form hname
        split_ifs at h with hempty hdup
        · cases h
        · obtain ⟨_, -, h⟩ := bind_eq_ok.1 h
          cases h
        · obtain ⟨type, htype, h⟩ := bind_eq_ok.1 h
          cases h
          refine ⟨.mk (checkKeys_eq_ok_iff.1 hkeys) (field_eq_some_iff.1 hname) hempty
            (declType_eq_ok_iff.1 htype), ?_⟩
          simpa using hdup
      · cases h
    · cases h
  · rintro ⟨@⟨pos, inner, es, name, form, type, hkeys, hname, hempty, htype⟩, hdup⟩
    have hany : ¬ scope.any (·.name == name) = true := by simpa using hdup
    refine bind_eq_ok.2 ⟨(), checkKeys_eq_ok_iff.2 hkeys, ?_⟩
    simp only [field_eq_some_iff.2 hname, if_neg hempty]
    refine bind_eq_ok.2 ⟨_, declType_eq_ok_iff.2 htype, ?_⟩
    rw [if_neg hany]
    rfl

theorem decls_eq_ok_iff {path : Path} : ∀ {i : ℕ} {scope : List Decl} {ns : List Node}
    {ds : List Decl}, (scope.map Decl.name).Nodup → (decls path i scope ns = .ok ds ↔
      ∃ new, ds = scope ++ new ∧ DenotesDecls path i ns new ∧ (ds.map Decl.name).Nodup)
  | i, scope, [], ds, hscope => by
    rw [decls, Except.ok.injEq]
    constructor
    · rintro rfl
      exact ⟨[], (List.append_nil _).symm, .nil, hscope⟩
    · rintro ⟨new, rfl, ⟨⟩, -⟩
      exact (List.append_nil _).symm
  | i, scope, n :: ns, ds, hscope => by
    rw [decls, bind_eq_ok]
    constructor
    · rintro ⟨d, hd, h⟩
      obtain ⟨hd, hnew⟩ := decl_eq_ok_iff.1 hd
      have hscope' : ((scope ++ [d]).map Decl.name).Nodup := by
        rw [List.map_append, List.nodup_append]
        refine ⟨hscope, by simp, ?_⟩
        intro x hx y hy hxy
        simp only [List.map_cons, List.map_nil, List.mem_singleton] at hy
        exact hnew (hy ▸ hxy ▸ hx)
      obtain ⟨new, rfl, hds, hnodup⟩ := (decls_eq_ok_iff hscope').1 h
      exact ⟨d :: new, by simp, .cons hd hds, hnodup⟩
    · rintro ⟨new, rfl, hnew, hnodup⟩
      cases hnew with
      | @cons _ _ _ d new hd hds =>
        have hsplit : scope ++ d :: new = scope ++ [d] ++ new := by simp
        rw [hsplit] at hnodup ⊢
        have hscope' : ((scope ++ [d]).map Decl.name).Nodup := by
          rw [List.map_append, List.nodup_append] at hnodup
          exact hnodup.1
        refine ⟨d, decl_eq_ok_iff.2 ⟨hd, ?_⟩, (decls_eq_ok_iff hscope').2 ⟨new, rfl, hds, hnodup⟩⟩
        rw [List.map_append, List.nodup_append] at hscope'
        exact fun hmem => hscope'.2.2 _ hmem _ (by simp) rfl

theorem listUnder_iff {key : String} {es : List (Node × Node)} {ns : List Node} :
    ListUnder key es ns ↔ field key es = none ∧ ns = []
      ∨ ∃ pos, field key es = some (.sequence pos ns) := by
  simp only [ListUnder, field_eq_none_iff, field_eq_some_iff]

theorem blockDecls_eq_ok_iff {path : Path} {es : List (Node × Node)} {ds : List Decl} :
    blockDecls path es = .ok ds ↔ ∃ ns, ListUnder "declarations" es ns
      ∧ DenotesDecls (path.key "declarations") 0 ns ds ∧ (ds.map Decl.name).Nodup := by
  simp only [listUnder_iff]
  unfold blockDecls
  split
  · rename_i hnone
    constructor
    · intro h
      cases h
      exact ⟨[], Or.inl ⟨hnone, rfl⟩, .nil, List.nodup_nil⟩
    · rintro ⟨ns, ⟨-, rfl⟩ | ⟨pos, hsome⟩, hds, -⟩
      · cases hds
        rfl
      · rw [hnone] at hsome
        cases hsome
  · rename_i pos ns hsome
    have hempty : (([] : List Decl).map Decl.name).Nodup := List.nodup_nil
    rw [decls_eq_ok_iff hempty]
    constructor
    · rintro ⟨new, rfl, hds, hnodup⟩
      exact ⟨ns, Or.inr ⟨pos, hsome⟩, hds, hnodup⟩
    · rintro ⟨ns', ⟨hnone, -⟩ | ⟨pos', hsome'⟩, hds, hnodup⟩
      · rw [hsome] at hnone
        cases hnone
      · cases hsome.symm.trans hsome'
        exact ⟨ds, rfl, hds, hnodup⟩
  · rename_i n hother hsome
    constructor
    · intro h
      cases h
    · rintro ⟨ns, ⟨hnone, -⟩ | ⟨pos, hseq⟩, -⟩
      · rw [hsome] at hnone
        cases hnone
      · cases hsome.symm.trans hseq
        exact absurd rfl (hother _ _)

/-! ## Statements and blocks, one step at a time -/

section Steps

variable {scopes : Scopes} {path : Path} {pos inner : Position} {key : Node}
  {es : List (Node × Node)}

theorem stmt_assign_eq_ok_iff (hs : Distinct scopes) (hkey : key.text = "assign") {s : Stmt} :
    stmt scopes path (.mapping pos [(key, .mapping inner es)]) = .ok s ↔
      KeysIn ["target", "source"] es ∧ ∃ tn sn target source, FirstValue "target" es tn
        ∧ FirstValue "source" es sn ∧ DenotesRef scopes tn target ∧ DenotesExpr scopes sn source
        ∧ s = .assign inner (some target) source := by
  rw [stmt.eq_def]
  simp only [hkey, bind_eq_ok, checkKeys_eq_ok_iff]
  constructor
  · rintro ⟨_, hkeys, h⟩
    split at h
    · rename_i tn sn htn hsn
      obtain ⟨target, htarget, h⟩ := bind_eq_ok.1 h
      obtain ⟨source, hsource, h⟩ := bind_eq_ok.1 h
      cases h
      exact ⟨hkeys, tn, sn, target, source, field_eq_some_iff.1 htn, field_eq_some_iff.1 hsn,
        (varRef_eq_ok_iff hs).1 htarget, (expr_eq_ok_iff hs).1 hsource, rfl⟩
    · cases h
  · rintro ⟨hkeys, tn, sn, target, source, htn, hsn, htarget, hsource, rfl⟩
    refine ⟨(), hkeys, ?_⟩
    simp only [field_eq_some_iff.2 htn, field_eq_some_iff.2 hsn]
    exact bind_eq_ok.2 ⟨target, (varRef_eq_ok_iff hs).2 htarget,
      bind_eq_ok.2 ⟨source, (expr_eq_ok_iff hs).2 hsource, rfl⟩⟩

theorem stmt_read_eq_ok_iff (hs : Distinct scopes) (hkey : key.text = "read") {ns : List Node}
    {s : Stmt} : stmt scopes path (.mapping pos [(key, .sequence inner ns)]) = .ok s ↔
      ∃ refs, List.Forall₂ (DenotesRef scopes) ns refs ∧ s = .read pos (refs.map some) := by
  rw [stmt.eq_def]
  simp only [hkey, bind_eq_ok, varRefs_eq_ok_iff hs]
  simp only [pure, Except.pure, Except.ok.injEq, eq_comm]

theorem stmt_write_eq_ok_iff (hs : Distinct scopes) (hkey : key.text = "write") {ns : List Node}
    {s : Stmt} : stmt scopes path (.mapping pos [(key, .sequence inner ns)]) = .ok s ↔
      ∃ es, List.Forall₂ (DenotesExpr scopes) ns es ∧ s = .write pos es := by
  rw [stmt.eq_def]
  simp only [hkey, bind_eq_ok, exprs_eq_ok_iff hs]
  simp only [pure, Except.pure, Except.ok.injEq, eq_comm]

theorem stmt_loop_eq_ok_iff (hs : Distinct scopes) (hkey : key.text = "while") {s : Stmt} :
    stmt scopes path (.mapping pos [(key, .mapping inner es)]) = .ok s ↔
      KeysIn ["condition", "body"] es ∧ ∃ cn bn cond b, FirstValue "condition" es cn
        ∧ FirstValue "body" es bn ∧ DenotesExpr scopes cn cond
        ∧ block scopes ((path.key "while").key "body") bn = .ok b
        ∧ s = .loop inner cond (some b) := by
  rw [stmt.eq_def]
  simp only [hkey, bind_eq_ok, checkKeys_eq_ok_iff]
  constructor
  · rintro ⟨_, hkeys, h⟩
    split at h
    · rename_i cn bn hcn hbn
      obtain ⟨cond, hcond, h⟩ := bind_eq_ok.1 h
      obtain ⟨b, hb, h⟩ := bind_eq_ok.1 h
      cases h
      exact ⟨hkeys, cn, bn, cond, b, field_eq_some_iff.1 hcn, field_eq_some_iff.1 hbn,
        (expr_eq_ok_iff hs).1 hcond, hb, rfl⟩
    · cases h
  · rintro ⟨hkeys, cn, bn, cond, b, hcn, hbn, hcond, hb, rfl⟩
    refine ⟨(), hkeys, ?_⟩
    split
    · rename_i cn' bn' hcn' hbn'
      cases hcn'.symm.trans (field_eq_some_iff.2 hcn)
      cases hbn'.symm.trans (field_eq_some_iff.2 hbn)
      exact bind_eq_ok.2 ⟨cond, (expr_eq_ok_iff hs).2 hcond, bind_eq_ok.2 ⟨b, hb, rfl⟩⟩
    · rename_i hno
      exact absurd (field_eq_some_iff.2 hbn) (hno _ _ (field_eq_some_iff.2 hcn))

theorem stmt_block_eq_ok_iff (hkey : key.text = "block") {body : Node} {s : Stmt} :
    stmt scopes path (.mapping pos [(key, body)]) = .ok s ↔
      ∃ b, block scopes (path.key "block") body = .ok b ∧ s = .block b := by
  rw [stmt.eq_def]
  simp only [hkey, bind_eq_ok]
  simp only [pure, Except.pure, Except.ok.injEq, eq_comm]

theorem block_eq_ok_iff {b : Block} : block scopes path (.mapping pos es) = .ok b ↔
    KeysIn ["declarations", "statements"] es ∧ ∃ dns ds sns ss,
      ListUnder "declarations" es dns ∧ DenotesDecls (path.key "declarations") 0 dns ds
        ∧ (ds.map Decl.name).Nodup ∧ ListUnder "statements" es sns
        ∧ stmts (ds :: scopes) (path.key "statements") 0 sns = .ok ss
        ∧ b = .mk pos (ds.map .decl ++ ss) := by
  rw [block.eq_def]
  simp only [bind_eq_ok, checkKeys_eq_ok_iff, blockDecls_eq_ok_iff]
  constructor
  · rintro ⟨_, hkeys, ds, ⟨dns, hdns, hds, hnodup⟩, h⟩
    refine ⟨hkeys, dns, ds, ?_⟩
    split at h
    · rename_i hnone
      cases h
      refine ⟨[], [], hdns, hds, hnodup, listUnder_iff.2 (Or.inl ⟨hnone, rfl⟩), ?_, by simp⟩
      rw [stmts]
    · rename_i spos sns hsome
      obtain ⟨ss, hss, h⟩ := bind_eq_ok.1 h
      cases h
      exact ⟨sns, ss, hdns, hds, hnodup, listUnder_iff.2 (Or.inr ⟨spos, hsome⟩), hss, rfl⟩
    · cases h
  · rintro ⟨hkeys, dns, ds, sns, ss, hdns, hds, hnodup, hsns, hss, rfl⟩
    refine ⟨(), hkeys, ds, ⟨dns, hdns, hds, hnodup⟩, ?_⟩
    rw [listUnder_iff] at hsns
    split
    · rename_i hnone
      rcases hsns with ⟨-, rfl⟩ | ⟨spos, hsome⟩
      · rw [stmts] at hss
        cases hss
        simp [pure, Except.pure]
      · rw [hnone] at hsome
        cases hsome
    · rename_i spos sns' hsome
      rcases hsns with ⟨hnone, -⟩ | ⟨spos', hsome'⟩
      · rw [hsome] at hnone
        cases hnone
      · cases hsome.symm.trans hsome'
        exact bind_eq_ok.2 ⟨ss, hss, rfl⟩
    · rename_i sn hother hsome
      rcases hsns with ⟨hnone, -⟩ | ⟨spos, hsome'⟩
      · rw [hsome] at hnone
        cases hnone
      · cases hsome.symm.trans hsome'
        exact absurd rfl (hother _ _)

end Steps

/-! ## Statements and blocks -/

theorem Distinct.cons {scopes : Scopes} (hs : Distinct scopes) {ds : List Decl}
    (hds : (ds.map Decl.name).Nodup) : Distinct (ds :: scopes) := by
  intro s hmem
  rcases List.mem_cons.1 hmem with rfl | hmem
  · exact hds
  · exact hs s hmem

mutual

theorem stmt_of_denotesStmt {scopes : Scopes} (hs : Distinct scopes) {path : Path} {n : Node}
    {s : Stmt} : DenotesStmt scopes path n s → stmt scopes path n = .ok s
  | .assign hkey hkeys htn hsn htarget hsource =>
    (stmt_assign_eq_ok_iff hs hkey).2 ⟨hkeys, _, _, _, _, htn, hsn, htarget, hsource, rfl⟩
  | .read hkey hrefs => (stmt_read_eq_ok_iff hs hkey).2 ⟨_, hrefs, rfl⟩
  | .write hkey hes => (stmt_write_eq_ok_iff hs hkey).2 ⟨_, hes, rfl⟩
  | .loop hkey hkeys hcn hbn hcond hb =>
    (stmt_loop_eq_ok_iff hs hkey).2
      ⟨hkeys, _, _, _, _, hcn, hbn, hcond, block_of_denotesBlock hs hb, rfl⟩
  | .block hkey hb => (stmt_block_eq_ok_iff hkey).2 ⟨_, block_of_denotesBlock hs hb, rfl⟩

theorem stmts_of_denotesStmts {scopes : Scopes} (hs : Distinct scopes) {path : Path} {i : ℕ}
    {ns : List Node} {ss : List Stmt} :
    DenotesStmts scopes path i ns ss → stmts scopes path i ns = .ok ss
  | .nil => by rw [stmts]
  | .cons hstmt hstmts => by
    rw [stmts, bind_eq_ok]
    exact ⟨_, stmt_of_denotesStmt hs hstmt,
      bind_eq_ok.2 ⟨_, stmts_of_denotesStmts hs hstmts, rfl⟩⟩

theorem block_of_denotesBlock {scopes : Scopes} (hs : Distinct scopes) {path : Path} {n : Node}
    {b : Block} : DenotesBlock scopes path n b → block scopes path n = .ok b
  | .mk hkeys hdns hds hnodup hsns hss =>
    block_eq_ok_iff.2 ⟨hkeys, _, _, _, _, hdns, hds, hnodup, hsns,
      stmts_of_denotesStmts (hs.cons hnodup) hss, rfl⟩

end

/-- What loads as a block denotes it. The induction is over the calls of the loader; in the cases
without a name the node is refused. -/
theorem denotesBlock_of_block {scopes : Scopes} (hs : Distinct scopes) {path : Path} {n : Node}
    {b : Block} (h : block scopes path n = .ok b) : DenotesBlock scopes path n b := by
  refine (stmt.mutual_induct
    (fun scopes path n => Distinct scopes → ∀ s, stmt scopes path n = .ok s →
      DenotesStmt scopes path n s)
    (fun scopes path n => Distinct scopes → ∀ b, block scopes path n = .ok b →
      DenotesBlock scopes path n b)
    (fun scopes path i ns => Distinct scopes → ∀ ss, stmts scopes path i ns = .ok ss →
      DenotesStmts scopes path i ns ss)
    ?assign ?_ ?read ?_ ?write ?_ ?loop ?_ ?block ?unknown ?shape ?mk ?other ?nil ?cons).2.1
      scopes path n hs b h
  case assign =>
    intro scopes path pos key hkey inner es hs s h
    obtain ⟨hkeys, tn, sn, target, source, htn, hsn, htarget, hsource, rfl⟩ :=
      (stmt_assign_eq_ok_iff hs hkey).1 h
    exact .assign hkey hkeys htn hsn htarget hsource
  case read =>
    intro scopes path pos key hkey inner ns hs s h
    obtain ⟨refs, hrefs, rfl⟩ := (stmt_read_eq_ok_iff hs hkey).1 h
    exact .read hkey hrefs
  case write =>
    intro scopes path pos key hkey inner ns hs s h
    obtain ⟨es, hes, rfl⟩ := (stmt_write_eq_ok_iff hs hkey).1 h
    exact .write hkey hes
  case loop =>
    intro scopes path pos key _ hkey inner es ih hs s h
    obtain ⟨hkeys, cn, bn, cond, b, hcn, hbn, hcond, hb, rfl⟩ := (stmt_loop_eq_ok_iff hs hkey).1 h
    rw [← hkey] at hb
    exact .loop hkey hkeys hcn hbn hcond (hkey ▸ ih bn (field_eq_some_iff.2 hbn) hs b hb)
  case block =>
    intro scopes path pos key body _ hkey ih hs s h
    obtain ⟨b, hb, rfl⟩ := (stmt_block_eq_ok_iff hkey).1 h
    rw [← hkey] at hb
    exact .block hkey (hkey ▸ ih hs b hb)
  case unknown =>
    intro scopes path pos key body hassign hread hwrite hloop hblock hs s h
    rw [stmt.eq_def] at h
    dsimp only at h
    split at h
    · exact absurd ‹_› hassign
    · exact absurd ‹_› hread
    · exact absurd ‹_› hwrite
    · exact absurd ‹_› hloop
    · exact absurd ‹_› hblock
    · cases h
  case shape =>
    intro scopes path n hn hs s h
    rw [stmt.eq_def] at h
    split at h
    · exact absurd rfl (hn _ _ _)
    · cases h
  case mk =>
    intro scopes path pos es ih hs b h
    obtain ⟨hkeys, dns, ds, sns, ss, hdns, hds, hnodup, hsns, hss, rfl⟩ := block_eq_ok_iff.1 h
    refine .mk hkeys hdns hds hnodup hsns ?_
    rcases listUnder_iff.1 hsns with ⟨-, rfl⟩ | ⟨spos, hsome⟩
    · rw [stmts] at hss
      cases hss
      exact .nil
    · exact ih ds spos sns hsome (hs.cons hnodup) ss hss
  case other =>
    intro scopes path n hn hs b h
    rw [block.eq_def] at h
    split at h
    · exact absurd rfl (hn _ _)
    · cases h
  case nil =>
    intro scopes path i hs ss h
    rw [stmts] at h
    cases h
    exact .nil
  case cons =>
    intro scopes path i n ns ih ih' hs ss h
    rw [stmts, bind_eq_ok] at h
    obtain ⟨s, hstmt, h⟩ := h
    obtain ⟨ss, hstmts, h⟩ := bind_eq_ok.1 h
    cases h
    exact .cons (ih hs s hstmt) (ih' hs ss hstmts)
  all_goals
    intro scopes path pos key body hkey hbody hs s h
    rw [stmt.eq_def] at h
    simp only [hkey] at h
    cases h

theorem program_eq_ok_iff {root : Node} {p : Program} : program root = .ok p ↔ Denotes root p := by
  have hs : Distinct [] := by simp [Distinct]
  unfold program Denotes
  rw [bind_eq_ok]
  constructor
  · rintro ⟨b, hb, h⟩
    cases h
    exact ⟨b, denotesBlock_of_block hs hb, rfl⟩
  · rintro ⟨b, hb, rfl⟩
    exact ⟨b, block_of_denotesBlock hs hb, rfl⟩

theorem load_eq_ok_iff {bytes : ByteArray} {p : Program} :
    load bytes = .ok p ↔ ∃ root, Document.parse bytes = .ok (some root) ∧ program root = .ok p := by
  unfold load
  split
  · rename_i hparse
    simp [hparse]
  · rename_i hparse
    simp [hparse]
  · rename_i root hparse
    cases hp : program root with
    | error e => simp [hparse, hp, Except.mapError]
    | ok q => simp [hparse, hp, Except.mapError]

/-- The document in a text, of which something computed is known. -/
theorem exists_root {α : Type} {bytes : ByteArray} {view : Node → α} {a : α}
    (h : (Document.parse bytes).toOption.join.map view = some a) :
    ∃ root, Document.parse bytes = .ok (some root) ∧ view root = a := by
  obtain ⟨root, hroot, hview⟩ := Option.map_eq_some_iff.1 h
  refine ⟨root, ?_, hview⟩
  cases hparse : Document.parse bytes with
  | error e =>
    rw [hparse] at hroot
    cases hroot
  | ok n =>
    rw [hparse] at hroot
    exact congrArg _ hroot

/-- A document loads as a program exactly if it denotes that program, and a text exactly if it holds
such a document. -/
theorem load_iff_denotes :
    (∀ (root : Node) (p : Program), program root = .ok p ↔ Denotes root p)
      ∧ ∀ (bytes : ByteArray) (p : Program), load bytes = .ok p ↔
        ∃ root, Document.parse bytes = .ok (some root) ∧ Denotes root p := by
  refine ⟨fun root p => program_eq_ok_iff, fun bytes p => ?_⟩
  rw [load_eq_ok_iff]
  simp only [program_eq_ok_iff]

end WhileAsm.Load
