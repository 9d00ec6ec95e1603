import WhileAsm.Proofs.Grammar

/-!
# Every reference means the innermost declaration around it

The blocks of a tree are told apart by their addresses: the indices of the statements that lead to
them (`Block.at?`). The blocks around a reference are those at the prefixes of its address.

What a block denotes is taken apart once (`DenotesBlock.parts`): its declarations, and its
statements in the scope of these. By induction on the address, a reference means a declaration of
the longest prefix whose block declares its name (`resolves_of_denotes`). The place of a declaration
tells the address of its block and its index there (`eq_of_place`), so that two declarations are
never the same variable, and none is meant from outside its block.
-/

namespace WhileAsm

/-! ## References and declarations in a tree -/

def Expr.mentions : Expr → List VarRef
  | .var ref => [ref]
  | .unary _ _ x => x.mentions
  | .binary _ _ l r => l.mentions ++ r.mentions
  | _ => []

/-- The references in a statement, without those in the block that it holds. -/
def Stmt.mentions : Stmt → List VarRef
  | .assign _ target source => target.toList ++ source.mentions
  | .read _ refs => refs.filterMap id
  | .write _ es => es.flatMap Expr.mentions
  | .loop _ cond _ => cond.mentions
  | _ => []

def Stmt.inner? : Stmt → Option Block
  | .block b => some b
  | .loop _ _ body => body
  | _ => none

namespace Block

/-- The block that the statement with index `j` holds. -/
def child? (b : Block) (j : ℕ) : Option Block := b.stmts[j]?.bind Stmt.inner?

def at? : Block → List ℕ → Option Block
  | b, [] => some b
  | b, j :: a => (b.child? j).bind fun b' => b'.at? a

/-- The statement with index `i` of the block at an address declares a variable. -/
def DeclaresAt (b : Block) (a : List ℕ) (i : ℕ) (d : Decl) : Prop :=
  ∃ c, b.at? a = some c ∧ c.stmts[i]? = some (.decl d)

/-- A statement of the block at an address has a reference. -/
def RefersAt (b : Block) (a : List ℕ) (ref : VarRef) : Prop :=
  ∃ c, b.at? a = some c ∧ ∃ st ∈ c.stmts, ref ∈ st.mentions

/-- Of the blocks around an address, none of depth `m` or more declares a name. -/
def Undeclared (b : Block) (a : List ℕ) (m : ℕ) (name : String) : Prop :=
  ∀ a' i d, a' <+: a → m ≤ a'.length → b.DeclaresAt a' i d → d.name ≠ name

/-- References mean what they should. -/
structure Lexical (b : Block) : Prop where
  /-- A reference means a declaration of its name, in the innermost block around it that has one. -/
  resolved : ∀ {a ref}, b.RefersAt a ref → ∃ d a' i, ref.referent = some d ∧ d.name = ref.name
    ∧ a' <+: a ∧ b.DeclaresAt a' i d ∧ b.Undeclared a (a'.length + 1) ref.name
  /-- No block declares a name twice. -/
  distinct : ∀ {a i j d d'}, b.DeclaresAt a i d → b.DeclaresAt a j d' → d.name = d'.name → i = j
  /-- Two declarations are different variables. -/
  identity : ∀ {a a' i i' d d'}, b.DeclaresAt a i d → b.DeclaresAt a' i' d' →
    d.place = d'.place → a = a' ∧ i = i'
  /-- A declaration is meant only from inside its block. -/
  confined : ∀ {a a' i d ref}, b.DeclaresAt a i d → b.RefersAt a' ref → ref.referent = some d →
    a <+: a'

variable {b b' c : Block} {i j : ℕ} {a : List ℕ} {d : Decl} {ref : VarRef} {name : String}

theorem at?_cons :
    b.at? (j :: a) = some c ↔ ∃ b', b.child? j = some b' ∧ b'.at? a = some c :=
  Option.bind_eq_some_iff

theorem exists_at?_cons {Q : Block → Prop} : (∃ c, b.at? (j :: a) = some c ∧ Q c) ↔
    ∃ b', b.child? j = some b' ∧ ∃ c, b'.at? a = some c ∧ Q c := by
  simp only [at?_cons]
  constructor
  · rintro ⟨c, ⟨b', hb', hc⟩, hq⟩
    exact ⟨b', hb', c, hc, hq⟩
  · rintro ⟨b', hb', c, hc, hq⟩
    exact ⟨c, ⟨b', hb', hc⟩, hq⟩

theorem declaresAt_nil : b.DeclaresAt [] i d ↔ b.stmts[i]? = some (.decl d) := by
  simp [DeclaresAt, at?]

theorem declaresAt_cons :
    b.DeclaresAt (j :: a) i d ↔ ∃ b', b.child? j = some b' ∧ b'.DeclaresAt a i d :=
  exists_at?_cons

theorem refersAt_nil : b.RefersAt [] ref ↔ ∃ st ∈ b.stmts, ref ∈ st.mentions := by
  simp [RefersAt, at?]

theorem refersAt_cons :
    b.RefersAt (j :: a) ref ↔ ∃ b', b.child? j = some b' ∧ b'.RefersAt a ref :=
  exists_at?_cons

theorem Undeclared.cons {m : ℕ} (hb' : b.child? j = some b') (h : b'.Undeclared a m name) :
    b.Undeclared (j :: a) (m + 1) name := by
  intro a' i d hpre hlen hd
  cases a' with
  | nil => simp at hlen
  | cons j' a' =>
    obtain ⟨rfl, hpre'⟩ := List.cons_prefix_cons.1 hpre
    obtain ⟨b'', hb'', hd⟩ := declaresAt_cons.1 hd
    cases hb'.symm.trans hb''
    exact h a' i d hpre' (by simpa using hlen) hd

theorem Undeclared.zero (h : b.Undeclared a 1 name)
    (hb : ∀ i d, b.DeclaresAt [] i d → d.name ≠ name) : b.Undeclared a 0 name := by
  intro a' i d hpre _ hd
  cases a' with
  | nil => exact hb i d hd
  | cons j a' => exact h (j :: a') i d hpre (by simp) hd

end Block

/-! ## What the parts of a document denote -/

namespace Load

open Document (Node)

variable {scopes : Scopes} {path : Path} {n : Node}

theorem DenotesRef.means {ref : VarRef} (h : DenotesRef scopes n ref) :
    ∃ d, ref.referent = some d ∧ Means scopes ref.name d := by
  cases h with
  | mk hname hd => exact ⟨_, rfl, hd⟩

theorem DenotesExpr.means {e : Expr} (h : DenotesExpr scopes n e) :
    ∀ ref ∈ e.mentions, ∃ d, ref.referent = some d ∧ Means scopes ref.name d := by
  induction h with
  | int | bool => simp [Expr.mentions]
  | var _ href =>
    intro ref hmem
    rw [List.mem_singleton.1 hmem]
    exact href.means
  | unary _ _ _ _ _ _ ih => exact ih
  | binary _ _ _ _ _ _ _ _ ihl ihr =>
    intro ref hmem
    rcases List.mem_append.1 hmem with hmem | hmem
    · exact ihl ref hmem
    · exact ihr ref hmem

theorem exists_of_forall₂ {α β : Type} {R : α → β → Prop} {xs : List α} {ys : List β}
    (h : List.Forall₂ R xs ys) : ∀ y ∈ ys, ∃ x, R x y := by
  induction h with
  | nil => simp
  | cons hxy _ ih =>
    intro y hmem
    rcases List.mem_cons.1 hmem with rfl | hmem
    · exact ⟨_, hxy⟩
    · exact ih y hmem

theorem DenotesStmt.means {st : Stmt} (h : DenotesStmt scopes path n st) :
    ∀ ref ∈ st.mentions, ∃ d, ref.referent = some d ∧ Means scopes ref.name d := by
  cases h with
  | assign _ _ _ _ htarget hsource =>
    intro ref hmem
    rcases List.mem_append.1 hmem with hmem | hmem
    · cases Option.mem_toList.1 hmem
      exact htarget.means
    · exact hsource.means ref hmem
  | read _ hrefs =>
    intro ref hmem
    obtain ⟨n, href⟩ := exists_of_forall₂ hrefs ref (by simpa [Stmt.mentions] using hmem)
    exact href.means
  | write _ hes =>
    intro ref hmem
    obtain ⟨e, he, hmem⟩ := List.mem_flatMap.1 hmem
    obtain ⟨n, hexpr⟩ := exists_of_forall₂ hes e he
    exact hexpr.means ref hmem
  | loop _ _ _ _ hcond _ => exact hcond.means
  | block _ _ => simp [Stmt.mentions]

theorem DenotesStmt.ne_decl {st : Stmt} (h : DenotesStmt scopes path n st) (d : Decl) :
    st ≠ .decl d := by
  rintro rfl
  cases h

/-- The block that a statement holds lies below it in the document. -/
theorem DenotesStmt.inner {st : Stmt} (h : DenotesStmt scopes path n st) {b : Block}
    (hb : st.inner? = some b) : ∃ path' n', path <+: path' ∧ DenotesBlock scopes path' n' b := by
  cases h with
  | loop _ _ _ _ _ hbody =>
    cases hb
    exact ⟨_, _, (List.prefix_append _ _).trans (List.prefix_append _ _), hbody⟩
  | block _ hbody =>
    cases hb
    exact ⟨_, _, List.prefix_append _ _, hbody⟩
  | assign | read | write => cases hb

theorem DenotesDecls.place {ns : List Node} {ds : List Decl} {i : ℕ}
    (h : DenotesDecls path i ns ds) {k : ℕ} {d : Decl} (hd : ds[k]? = some d) :
    d.place = path.index (i + k) := by
  induction h generalizing k with
  | nil => simp at hd
  | cons hdecl _ ih =>
    cases k with
    | zero =>
      cases hd
      cases hdecl
      rfl
    | succ k =>
      rw [ih hd, Nat.add_assoc, Nat.add_comm 1 k]

theorem DenotesStmts.get : ∀ {ns : List Node} {ss : List Stmt} {i : ℕ},
    DenotesStmts scopes path i ns ss → ∀ {k : ℕ} {st : Stmt}, ss[k]? = some st →
      ∃ n, DenotesStmt scopes (path.index (i + k)) n st
  | _, _, _, .nil, _, _, hst => by simp at hst
  | _, _, _, .cons hstmt _, 0, _, hst => by
    cases hst
    exact ⟨_, hstmt⟩
  | _, _, i, .cons _ hstmts, k + 1, _, hst => by
    obtain ⟨n, hn⟩ := hstmts.get hst
    rw [Nat.add_assoc, Nat.add_comm 1 k] at hn
    exact ⟨n, hn⟩

/-- A block has its declarations first, and statements in their scope after them. The places of both
are known. -/
structure Parts (scopes : Scopes) (path : Path) (b : Block) (ds : List Decl) (ss : List Stmt) :
    Prop where
  stmts_eq : b.stmts = ds.map .decl ++ ss
  nodup : (ds.map Decl.name).Nodup
  place : ∀ {i d}, ds[i]? = some d → d.place = (path.key "declarations").index i
  denotes : ∀ {k st}, ss[k]? = some st →
    ∃ n, DenotesStmt (ds :: scopes) ((path.key "statements").index k) n st

theorem DenotesBlock.parts {b : Block} (h : DenotesBlock scopes path n b) :
    ∃ ds ss, Parts scopes path b ds ss := by
  cases h with
  | @mk _ _ _ _ _ _ ds ss _ _ hds hnodup _ hss =>
    refine ⟨ds, ss, rfl, hnodup, ?_, ?_⟩
    · intro i d hd
      rw [hds.place hd, Nat.zero_add]
    · intro k st hst
      have := hss.get hst
      rwa [Nat.zero_add] at this

namespace Parts

variable {b b' : Block} {ds : List Decl} {ss : List Stmt} {i j : ℕ} {d : Decl}

theorem getElem?_decl (h : Parts scopes path b ds ss) :
    b.stmts[i]? = some (.decl d) ↔ ds[i]? = some d := by
  rw [h.stmts_eq]
  constructor
  · intro hi
    rcases Nat.lt_or_ge i ds.length with hlt | hge
    · rw [List.getElem?_append_left (by simpa using hlt), List.getElem?_map] at hi
      obtain ⟨d', hd', he⟩ := Option.map_eq_some_iff.1 hi
      cases he
      exact hd'
    · rw [List.getElem?_append_right (by simpa using hge)] at hi
      obtain ⟨n, hn⟩ := h.denotes hi
      exact absurd rfl (hn.ne_decl d)
  · intro hi
    obtain ⟨hlt, -⟩ := List.getElem?_eq_some_iff.1 hi
    rw [List.getElem?_append_left (by simpa using hlt), List.getElem?_map, hi]
    rfl

/-- A block inside a block is in the scope of its declarations, and below one of its statements in
the document. -/
theorem child (h : Parts scopes path b ds ss) (hb' : b.child? j = some b') :
    ∃ path' n', ds.length ≤ j ∧ (path.key "statements").index (j - ds.length) <+: path'
      ∧ DenotesBlock (ds :: scopes) path' n' b' := by
  obtain ⟨st, hst, hinner⟩ := Option.bind_eq_some_iff.1 hb'
  rw [h.stmts_eq] at hst
  rcases Nat.lt_or_ge j ds.length with hlt | hge
  · rw [List.getElem?_append_left (by simpa using hlt), List.getElem?_map] at hst
    obtain ⟨d, -, rfl⟩ := Option.map_eq_some_iff.1 hst
    cases hinner
  · rw [List.getElem?_append_right (by simpa using hge), List.length_map] at hst
    obtain ⟨n, hn⟩ := h.denotes hst
    obtain ⟨path', n', hpre, hblock⟩ := hn.inner hinner
    exact ⟨path', n', hge, hpre, hblock⟩

theorem means (h : Parts scopes path b ds ss) {st : Stmt} (hst : st ∈ b.stmts) {ref : VarRef}
    (href : ref ∈ st.mentions) :
    ∃ d, ref.referent = some d ∧ Means (ds :: scopes) ref.name d := by
  rw [h.stmts_eq] at hst
  rcases List.mem_append.1 hst with hst | hst
  · obtain ⟨d, -, rfl⟩ := List.mem_map.1 hst
    simp [Stmt.mentions] at href
  · obtain ⟨k, hk⟩ := List.mem_iff_getElem?.1 hst
    obtain ⟨n, hn⟩ := h.denotes hk
    exact hn.means ref href

end Parts

/-! ## Resolution -/

theorem Means.name_eq {name : String} {d : Decl} (h : Means scopes name d) : d.name = name := by
  obtain ⟨_, _, _, -, -, -, hname⟩ := h
  exact hname

/-- At an address in a block, a name means a declaration of the innermost block around it that has
one, or what it means outside. -/
def Resolves (scopes : Scopes) (b : Block) (a : List ℕ) (name : String) (d : Decl) : Prop :=
  (∃ a' i, a' <+: a ∧ b.DeclaresAt a' i d ∧ b.Undeclared a (a'.length + 1) name)
    ∨ b.Undeclared a 0 name ∧ Means scopes name d

theorem Parts.resolves {b : Block} {ds : List Decl} {ss : List Stmt}
    (h : Parts scopes path b ds ss) {a : List ℕ} {name : String} {d : Decl}
    (hd : Means (ds :: scopes) name d) (hclear : b.Undeclared a 1 name) :
    Resolves scopes b a name d := by
  rcases means_cons.1 hd with ⟨hmem, -⟩ | ⟨hnone, hd⟩
  · obtain ⟨i, hi⟩ := List.mem_iff_getElem?.1 hmem
    exact Or.inl ⟨[], i, List.nil_prefix, Block.declaresAt_nil.2 (h.getElem?_decl.2 hi), hclear⟩
  · refine Or.inr ⟨hclear.zero fun i d' hd' => ?_, hd⟩
    exact hnone d' (List.mem_of_getElem? (h.getElem?_decl.1 (Block.declaresAt_nil.1 hd')))

theorem resolves_of_denotes {ref : VarRef} : ∀ {a : List ℕ} {scopes : Scopes} {path : Path}
    {n : Node} {b : Block}, DenotesBlock scopes path n b → b.RefersAt a ref →
      ∃ d, ref.referent = some d ∧ d.name = ref.name ∧ Resolves scopes b a ref.name d
  | [], scopes, path, n, b, h, href => by
    obtain ⟨ds, ss, hparts⟩ := h.parts
    obtain ⟨st, hst, hmem⟩ := Block.refersAt_nil.1 href
    obtain ⟨d, hd, hmeans⟩ := hparts.means hst hmem
    refine ⟨d, hd, hmeans.name_eq, hparts.resolves hmeans ?_⟩
    intro a' i d' hpre hlen
    rw [List.prefix_nil.1 hpre] at hlen
    simp at hlen
  | j :: a, scopes, path, n, b, h, href => by
    obtain ⟨ds, ss, hparts⟩ := h.parts
    obtain ⟨b', hb', href'⟩ := Block.refersAt_cons.1 href
    obtain ⟨path', n', -, -, h'⟩ := hparts.child hb'
    obtain ⟨d, hd, hname, hresolves⟩ := resolves_of_denotes h' href'
    refine ⟨d, hd, hname, ?_⟩
    rcases hresolves with ⟨a', i, hpre, hdecl, hclear⟩ | ⟨hclear, hmeans⟩
    · exact Or.inl ⟨j :: a', i, List.cons_prefix_cons.2 ⟨rfl, hpre⟩,
        Block.declaresAt_cons.2 ⟨b', hb', hdecl⟩, hclear.cons hb'⟩
    · exact hparts.resolves hmeans (hclear.cons hb')

/-! ## Identity -/

theorem DenotesBlock.at? : ∀ {a : List ℕ} {scopes : Scopes} {path : Path} {n : Node} {b c : Block},
    DenotesBlock scopes path n b → b.at? a = some c →
      ∃ scopes' path' n', DenotesBlock scopes' path' n' c
  | [], _, _, _, _, _, h, hc => by
    cases hc
    exact ⟨_, _, _, h⟩
  | j :: a, _, _, _, _, _, h, hc => by
    obtain ⟨ds, ss, hparts⟩ := h.parts
    obtain ⟨b', hb', hc'⟩ := Block.at?_cons.1 hc
    obtain ⟨path', n', -, -, h'⟩ := hparts.child hb'
    exact h'.at? hc'

theorem eq_of_name {b : Block} (h : DenotesBlock scopes path n b) {a : List ℕ} {i j : ℕ}
    {d d' : Decl} (hd : b.DeclaresAt a i d) (hd' : b.DeclaresAt a j d') (hname : d.name = d'.name) :
    i = j := by
  obtain ⟨c, hc, hi⟩ := hd
  obtain ⟨c', hc', hj⟩ := hd'
  cases hc.symm.trans hc'
  obtain ⟨_, _, _, hblock⟩ := h.at? hc
  obtain ⟨ds, ss, hparts⟩ := hblock.parts
  rw [hparts.getElem?_decl] at hi hj
  have hi' : (ds.map Decl.name)[i]? = some d.name := by rw [List.getElem?_map, hi]; rfl
  have hj' : (ds.map Decl.name)[j]? = some d.name := by rw [List.getElem?_map, hj, hname]; rfl
  obtain ⟨hlt, -⟩ := List.getElem?_eq_some_iff.1 hi'
  exact (List.getElem?_inj hlt hparts.nodup).1 (hi'.trans hj'.symm)

/-- What a block declares, at any depth, lies below the block in the document. -/
theorem DenotesBlock.prefix_place : ∀ {a : List ℕ} {scopes : Scopes} {path : Path} {n : Node}
    {b : Block} {i : ℕ} {d : Decl}, DenotesBlock scopes path n b → b.DeclaresAt a i d →
      path <+: d.place
  | [], _, path, _, _, i, d, h, hd => by
    obtain ⟨ds, ss, hparts⟩ := h.parts
    rw [Block.declaresAt_nil, hparts.getElem?_decl] at hd
    rw [hparts.place hd]
    exact (List.prefix_append _ _).trans (List.prefix_append _ _)
  | j :: a, _, path, _, _, i, d, h, hd => by
    obtain ⟨ds, ss, hparts⟩ := h.parts
    obtain ⟨b', hb', hd'⟩ := Block.declaresAt_cons.1 hd
    obtain ⟨path', n', -, hpre, h'⟩ := hparts.child hb'
    have hstep : path <+: (path.key "statements").index (j - ds.length) :=
      (List.prefix_append _ _).trans (List.prefix_append _ _)
    exact (hstep.trans hpre).trans (h'.prefix_place hd')

theorem Parts.prefix_place {b : Block} {ds : List Decl} {ss : List Stmt}
    (h : Parts scopes path b ds ss) {j : ℕ} {a : List ℕ} {i : ℕ} {d : Decl}
    (hd : b.DeclaresAt (j :: a) i d) :
    ds.length ≤ j ∧ (path.key "statements").index (j - ds.length) <+: d.place := by
  obtain ⟨b', hb', hd'⟩ := Block.declaresAt_cons.1 hd
  obtain ⟨path', n', hge, hpre, h'⟩ := h.child hb'
  exact ⟨hge, hpre.trans (h'.prefix_place hd')⟩

theorem Parts.place_ne {b : Block} {ds : List Decl} {ss : List Stmt}
    (h : Parts scopes path b ds ss) {j : ℕ} {a : List ℕ} {i i' : ℕ} {d d' : Decl}
    (hd : b.DeclaresAt [] i d) (hd' : b.DeclaresAt (j :: a) i' d') : d.place ≠ d'.place := by
  intro he
  have hpre := (h.prefix_place hd').2
  rw [Block.declaresAt_nil, h.getElem?_decl] at hd
  rw [← he, h.place hd] at hpre
  simp [Path.key, Path.index] at hpre

/-- The place of a declaration tells where it stands in the tree. -/
theorem eq_of_place : ∀ {a a' : List ℕ} {scopes : Scopes} {path : Path} {n : Node} {b : Block}
    {i i' : ℕ} {d d' : Decl}, DenotesBlock scopes path n b → b.DeclaresAt a i d →
      b.DeclaresAt a' i' d' → d.place = d'.place → a = a' ∧ i = i'
  | [], [], _, _, _, _, i, i', _, _, h, hd, hd', he => by
    obtain ⟨ds, ss, hparts⟩ := h.parts
    rw [Block.declaresAt_nil, hparts.getElem?_decl] at hd hd'
    rw [hparts.place hd, hparts.place hd'] at he
    exact ⟨rfl, by simpa [Path.index] using he⟩
  | [], _ :: _, _, _, _, _, _, _, _, _, h, hd, hd', he => by
    obtain ⟨ds, ss, hparts⟩ := h.parts
    exact absurd he (hparts.place_ne hd hd')
  | _ :: _, [], _, _, _, _, _, _, _, _, h, hd, hd', he => by
    obtain ⟨ds, ss, hparts⟩ := h.parts
    exact absurd he.symm (hparts.place_ne hd' hd)
  | j :: a, j' :: a', _, path, _, _, i, i', _, _, h, hd, hd', he => by
    obtain ⟨ds, ss, hparts⟩ := h.parts
    obtain ⟨hge, hpre⟩ := hparts.prefix_place hd
    obtain ⟨hge', hpre'⟩ := hparts.prefix_place hd'
    -- Both places go through the same statement, so both addresses do.
    have hj : j = j' := by
      rw [← he] at hpre'
      have hsame := List.prefix_of_prefix_length_le hpre hpre' (by simp [Path.index])
      have hindex : j - ds.length = j' - ds.length := by simpa [Path.index] using hsame
      omega
    subst hj
    obtain ⟨b', hb', hd₁⟩ := Block.declaresAt_cons.1 hd
    obtain ⟨b'', hb'', hd₂⟩ := Block.declaresAt_cons.1 hd'
    cases hb'.symm.trans hb''
    obtain ⟨path', n', -, -, h'⟩ := hparts.child hb'
    obtain ⟨rfl, rfl⟩ := eq_of_place h' hd₁ hd₂ he
    exact ⟨rfl, rfl⟩

theorem lexical_of_denotes {b : Block} (h : DenotesBlock [] [] n b) : b.Lexical := by
  have hresolved : ∀ {a : List ℕ} {ref : VarRef}, b.RefersAt a ref → ∃ d a' i,
      ref.referent = some d ∧ d.name = ref.name ∧ a' <+: a ∧ b.DeclaresAt a' i d
        ∧ b.Undeclared a (a'.length + 1) ref.name := by
    intro a ref href
    obtain ⟨d, hd, hname, ⟨a', i, hpre, hdecl, hclear⟩ | ⟨-, hmeans⟩⟩ := resolves_of_denotes h href
    · exact ⟨d, a', i, hd, hname, hpre, hdecl, hclear⟩
    · exact absurd hmeans means_nil
  refine ⟨hresolved, eq_of_name h, eq_of_place h, ?_⟩
  intro a a' i d ref hdecl href hd
  obtain ⟨d', a₀, i₀, hd', -, hpre, hdecl', -⟩ := hresolved href
  cases hd.symm.trans hd'
  obtain ⟨rfl, -⟩ := eq_of_place h hdecl hdecl' rfl
  exact hpre

end Load

/-- In a program that was loaded, every reference means the innermost declaration of its name. -/
theorem load_lexical {bytes : ByteArray} {p : Program} (h : load bytes = .ok p) :
    ∃ b, p.block = some b ∧ b.Lexical := by
  obtain ⟨root, -, hp⟩ := Load.load_eq_ok_iff.1 h
  obtain ⟨b, hb, rfl⟩ := Load.program_eq_ok_iff.1 hp
  exact ⟨b, rfl, Load.lexical_of_denotes hb⟩

/-- A variable `a` that one inner block declares again and the next one does not. -/
def shadowing : String := "\n".intercalate
  ["statements:",
    "- block:",
    "    statements:",
    "    - read: [a]",
    "    declarations:",
    "    - name: a",
    "- block:",
    "    statements:",
    "    - read: [a]",
    "declarations:",
    "- name: a"]

def Block.placesAt (b : Block) (a : List ℕ) : Option (List Path) :=
  (b.at? a).map fun c => c.stmts.flatMap fun st => st.mentions.filterMap fun ref =>
    ref.referent.map Decl.place

/-- The first inner block means its own variable, and the second one that of the outer block. -/
theorem load_lexical_shadowing : ∃ p b, load shadowing.toUTF8 = .ok p ∧ p.block = some b
    ∧ b.Lexical
    ∧ b.placesAt [1] = some
      [[.key "statements", .index 0, .key "block", .key "declarations", .index 0]]
    ∧ b.placesAt [2] = some [[.key "declarations", .index 0]] := by
  have hplaces : ((load shadowing.toUTF8).toOption.bind Program.block).map
      (fun b => (b.placesAt [1], b.placesAt [2]))
      = some (some [[.key "statements", .index 0, .key "block", .key "declarations", .index 0]],
        some [[.key "declarations", .index 0]]) := by
    decide +kernel
  cases hp : load shadowing.toUTF8 with
  | error e =>
    rw [hp] at hplaces
    cases hplaces
  | ok p =>
    obtain ⟨b, hb, hlexical⟩ := load_lexical hp
    rw [hp, show (Except.ok p : Except LoadFailure Program).toOption = some p from rfl,
      Option.bind_some, hb, Option.map_some, Option.some.injEq, Prod.mk.injEq] at hplaces
    exact ⟨p, b, rfl, hb, hlexical, hplaces.1, hplaces.2⟩

end WhileAsm
